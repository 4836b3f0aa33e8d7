import PortfolioEngine.Pipeline.WriteOnce

/-!
# Stored realized volatilities stay right

`_backfill_realized_vol` labels a time from the prices that are stored when it looks, and the value
is never computed again. `realized_stable`: if the candles of a symbol come in the order of time,
repetitions aside, every stored value is the label that all prices stored by now give, so that a
price that is inserted between the look and the update, or any time later, would not change it. The
value is at least `FORWARD_WINDOW` minutes old by then.
-/

namespace PortfolioEngine.Pipeline

open Tables Features Forecasting

variable {K : Type*}

/-! ## Labels and later prices -/

/-- The times and closes of a symbol, in the order of time. -/
def symbolCloses (prices : List (PriceRow K)) (symbol : Symbol) : List (ℤ × Flt K) :=
  timedCloses ((floats prices).filter fun r => r.symbol = symbol)

section Later

variable {prices : List (PriceRow K)} {candle : PriceRow K}

theorem symbolCloses_concat_of_ne {symbol : Symbol} (h : candle.symbol ≠ symbol) :
    symbolCloses (prices ++ [candle]) symbol = symbolCloses prices symbol := by
  unfold symbolCloses floats
  rw [List.map_append, List.filter_append, List.map_singleton, List.filter_cons_of_neg (by simpa),
    List.filter_nil, List.append_nil]

theorem nodup_timed (hkeys : (prices.map PriceRow.key).Nodup) (symbol : Symbol) :
    ((((floats prices).filter fun r => r.symbol = symbol).map fun r => (r.time, r.close)).map
      Prod.fst).Nodup := by
  rw [← keys_floats] at hkeys
  exact nodup_times hkeys fun r _ hr => of_decide_eq_true hr

theorem fst_lt_of_mem (h : ∀ p ∈ prices, p.symbol = candle.symbol → p.time < candle.time)
    {x : ℤ × Flt K} (hx : x ∈ symbolCloses prices candle.symbol) : x.1 < candle.time := by
  obtain ⟨r, hr, rfl⟩ := List.mem_map.mp ((Backlog.mem_ordered _).mp hx)
  obtain ⟨hr, hsymbol⟩ := List.mem_filter.mp hr
  obtain ⟨p, hp, rfl⟩ := List.mem_map.mp hr
  exact h p hp (of_decide_eq_true hsymbol)

theorem symbolCloses_concat (hkeys : (prices.map PriceRow.key).Nodup)
    (h : ∀ p ∈ prices, p.symbol = candle.symbol → p.time < candle.time) :
    symbolCloses (prices ++ [candle]) candle.symbol =
      symbolCloses prices candle.symbol ++ [(candle.time, Flt.fin candle.close)] := by
  have hsplit : ((floats (prices ++ [candle])).filter fun r => r.symbol = candle.symbol).map
      (fun r => (r.time, r.close)) =
        ((floats prices).filter fun r => r.symbol = candle.symbol).map (fun r => (r.time, r.close))
          ++ [(candle.time, Flt.fin candle.close)] := by
    unfold floats
    rw [List.map_append, List.filter_append, List.map_singleton, List.filter_cons_of_pos (by simp),
      List.filter_nil, List.map_append]
    rfl
  unfold symbolCloses timedCloses
  rw [hsplit]
  exact Backlog.ordered_concat (nodup_timed hkeys candle.symbol) fun x hx =>
    fst_lt_of_mem h ((Backlog.mem_ordered _).mpr hx)

variable [Field K] [LinearOrder K]

/-- A label that is there only looks at rows that are there. -/
theorem aheadLabel_append {P : Numerics K} {t : ℤ} {rows more : List (ℤ × Flt K)} {v : Flt K}
    (h : aheadLabel P t rows = some v) : aheadLabel P t (rows ++ more) = some v := by
  unfold aheadLabel at h ⊢
  split_ifs at h with hc
  obtain ⟨hmem, hlen⟩ := hc
  rw [if_pos, List.map_append, List.take_append_of_le_length, h]
  · rw [List.length_map]
    exact hlen
  · rw [List.map_append, List.length_append]
    exact ⟨List.mem_append_left _ hmem, by omega⟩

theorem labelAt_concat {P : Numerics K} (hkeys : (prices.map PriceRow.key).Nodup)
    (h : ∀ p ∈ prices, p.symbol = candle.symbol → p.time < candle.time) {symbol : Symbol} {t : ℤ}
    {v : Flt K} (hv : labelAt P (symbolCloses prices symbol) t = some v) :
    labelAt P (symbolCloses (prices ++ [candle]) symbol) t = some v := by
  by_cases hsymbol : candle.symbol = symbol
  · subst hsymbol
    have hstrict : (symbolCloses prices candle.symbol).Pairwise fun x y => x.1 < y.1 :=
      Backlog.strict_ordered (nodup_timed hkeys candle.symbol)
    have hstrict' : (symbolCloses prices candle.symbol ++
        [(candle.time, Flt.fin candle.close)]).Pairwise fun x y => x.1 < y.1 := by
      refine List.pairwise_append.mpr ⟨hstrict, List.pairwise_singleton _ _, fun x hx y hy => ?_⟩
      rw [List.mem_singleton.mp hy]
      exact fst_lt_of_mem h hx
    rw [labelAt_eq P hstrict] at hv
    rw [symbolCloses_concat hkeys h, labelAt_eq P hstrict', ahead, List.filter_append]
    exact aheadLabel_append hv
  · rw [symbolCloses_concat_of_ne hsymbol]
    exact hv

end Later

/-! ## The values of the backfill -/

section Values

variable [Field K] [LinearOrder K]

theorem mem_realizedUpdates {P : Numerics K} {pricesDf : List (ℤ × Flt K)} {times : List ℤ}
    {u : Flt K × ℤ} (hu : u ∈ realizedUpdates P pricesDf times) :
    u.2 ∈ times ∧ labelAt P pricesDf u.2 = some u.1 := by
  unfold realizedUpdates at hu
  split_ifs at hu
  · cases hu
  · obtain ⟨ts, hts, hu⟩ := List.mem_filterMap.mp hu
    obtain ⟨v, hv, rfl⟩ := Option.map_eq_some_iff.mp hu
    exact ⟨hts, hv⟩

/-- The value is the label of the key over all prices stored by now, and its minutes are over. -/
structure Settled (P : Numerics K) (clock : ℤ) (prices : List (PriceRow K)) (key : Symbol × ℤ)
    (v : Flt K) : Prop where
  passed : key.2 + forwardWindow * minute ≤ clock
  label : labelAt P (symbolCloses prices key.1) key.2 = some v

/-- What the loop is about to store is settled. -/
def Inference.Settles (P : Numerics K) (clock : ℤ) (prices : List (PriceRow K)) :
    Inference K → Prop
  | .inserting _ rows _ => ∀ r ∈ rows, r.realizedVol = none
  | .pricing _ first later _ =>
    ∀ t ∈ first :: later, first ≤ t ∧ t + forwardWindow * minute ≤ clock
  | .updating symbol updates _ => ∀ u ∈ updates, Settled P clock prices (symbol, u.2) u.1
  | _ => True

structure LabelInv (P : Numerics K) (w : World K) : Prop extends Inv P w where
  stored : ∀ r ∈ w.forecasts, ∀ v, r.realizedVol = some v →
    Settled P w.clock w.market.prices r.key v
  loop : ∀ i ∈ w.inference, i.Settles P w.clock w.market.prices

variable {P : Numerics K} {w w' : World K}

theorem Inference.Settles.mono {clock clock' : ℤ} {prices prices' : List (PriceRow K)}
    {i : Inference K} (h : i.Settles P clock prices) (hclock : clock ≤ clock')
    (hsettled : ∀ key v, Settled P clock prices key v → Settled P clock' prices' key v) :
    i.Settles P clock' prices' := by
  cases i with
  | inserting symbol rows rest => exact h
  | pricing symbol first later rest =>
    exact fun t ht => ⟨(h t ht).1, (h t ht).2.trans hclock⟩
  | updating symbol updates rest => exact fun u hu => hsettled _ _ (h u hu)
  | sleeping => trivial
  | turn l => trivial
  | missing symbol rest => trivial

theorem LabelInv.calls {bundle : Option (Bundle K)} {i j : Inference K}
    {forecasts : List (ForecastRow K)} (h : LabelInv P w) (hi : w.inference = some i)
    (hcalls : Calls P w bundle i j forecasts) :
    LabelInv P { w with inference := some j, forecasts := forecasts } := by
  have hinv := h.toInv.calls hi hcalls
  have hloop := h.loop i hi
  have hkeys : ((floats w.market.prices).map PriceRow.key).Nodup := by
    rw [keys_floats]
    exact h.toInv.references.uniquePrices
  cases hcalls with
  | finish => exact ⟨hinv, h.stored, by rintro _ ⟨⟩; trivial⟩
  | skip => exact ⟨hinv, h.stored, by rintro _ ⟨⟩; trivial⟩
  | nothing => exact ⟨hinv, h.stored, by rintro _ ⟨⟩; trivial⟩
  | predict symbol rest b _ =>
    exact ⟨hinv, h.stored, by rintro _ ⟨⟩; exact fun r hr => realizedVol_preds hr⟩
  | inserted => exact ⟨hinv, h.stored, by rintro _ ⟨⟩; trivial⟩
  | insert symbol row rows rest =>
    refine ⟨hinv, fun r hr v hv => ?_, ?_⟩
    · rcases mem_insertNew.mp hr with hr | ⟨_, rfl⟩
      · exact h.stored r hr v hv
      -- `save_predictions` writes no realized volatility, so there is nothing to keep
      · rw [hloop r List.mem_cons_self] at hv
        cases hv
    · rintro _ ⟨⟩
      exact fun r hr => hloop r (List.mem_cons_of_mem row hr)
  | complete => exact ⟨hinv, h.stored, by rintro _ ⟨⟩; trivial⟩
  | missing symbol first later rest hmissing =>
    refine ⟨hinv, h.stored, ?_⟩
    rintro _ ⟨⟩ t ht
    refine ⟨fst_le_of_mem_ordered hmissing t ht, ?_⟩
    rw [← hmissing] at ht
    obtain ⟨_, _, _, _, hle⟩ := mem_missing.mp ht
    exact le_sub_iff_add_le.mp hle
  | price symbol first later rest =>
    refine ⟨hinv, h.stored, ?_⟩
    rintro _ ⟨⟩ u hu
    obtain ⟨htime, hlabel⟩ := mem_realizedUpdates hu
    obtain ⟨hfirst, hover⟩ := hloop u.2 htime
    -- the prices are read from the first missing time on, which cuts off no later window
    rw [labelAt_since P symbol hkeys (by unfold minute; omega)] at hlabel
    exact ⟨hover, hlabel⟩
  | updated => exact ⟨hinv, h.stored, by rintro _ ⟨⟩; trivial⟩
  | update symbol update updates rest =>
    refine ⟨hinv, fun r hr v hv => ?_, ?_⟩
    · obtain ⟨x, hx, rfl⟩ := List.mem_map.mp hr
      split_ifs at hv ⊢ with hc
      · obtain rfl := Option.some.inj hv
        have hsettled := hloop update List.mem_cons_self
        rw [← hc.1, ← hc.2] at hsettled
        exact hsettled
      · exact h.stored x hx v hv
    · rintro _ ⟨⟩
      exact fun u hu => hloop u (List.mem_cons_of_mem update hu)

/-- In order, no price that is inserted changes a settled value. -/
theorem settled_of_market {e : Restart.Event K} {market : Restart.World K} (h : LabelInv P w)
    (hm : Restart.step P w.market e = some market) (horder : Restart.InOrder market.stream)
    {key : Symbol × ℤ} {v : Flt K} (hv : Settled P w.clock w.market.prices key v) :
    Settled P w.clock market.prices key v := by
  have hstream := (Restart.grows_step hm).stream
  cases Restart.steps_of_step hm with
  | xadd candle => exact hv
  | start => exact hv
  | insertPrice position buffers candle hservice hcandle =>
    by_cases hnew : candle.key ∈ w.market.prices.map PriceRow.key
    · rw [insertNew_of_mem hnew]
      exact hv
    -- a price that is new is the newest of its symbol, as the lives never skip a candle
    · obtain ⟨k, j, hcursors⟩ := h.cursors
      have hnewest := hcursors.newest (horder.of_prefix hstream) hservice hcandle hnew
      rw [insertNew_of_not_mem hnew]
      exact ⟨hv.passed, labelAt_concat h.toInv.references.uniquePrices hnewest hv.label⟩
  | insertFeatures => exact hv
  | crash => exact hv

theorem LabelInv.step {e : Event K} (h : LabelInv P w) (hstep : step P w e = some w')
    (horder : Restart.InOrder w'.market.stream) : LabelInv P w' := by
  have hinv := h.toInv.step hstep
  cases steps_of_step hstep with
  | tick t ht =>
    have hsettled : ∀ key v, Settled P w.clock w.market.prices key v →
        Settled P t w.market.prices key v := fun _ _ hv => ⟨hv.passed.trans ht, hv.label⟩
    exact ⟨hinv, fun r hr v hv => hsettled _ _ (h.stored r hr v hv),
      fun i hi => (h.loop i hi).mono ht hsettled⟩
  | market e market hm =>
    have hsettled : ∀ key v, Settled P w.clock w.market.prices key v →
        Settled P w.clock market.prices key v := fun _ _ => settled_of_market h hm horder
    exact ⟨hinv, fun r hr v hv => hsettled _ _ (h.stored r hr v hv),
      fun i hi => (h.loop i hi).mono le_rfl hsettled⟩
  | launch => exact ⟨hinv, h.stored, by rintro _ ⟨⟩; trivial⟩
  | cycle => exact ⟨hinv, h.stored, by rintro _ ⟨⟩; trivial⟩
  | call bundle i j forecasts hi hcalls => exact h.calls hi hcalls
  | raise => exact ⟨hinv, h.stored, by rintro _ ⟨⟩; trivial⟩
  | crash => exact ⟨hinv, h.stored, by rintro _ ⟨⟩⟩

/-- Where the candles have come in order, the invariant holds. -/
theorem Reachable.labelInv (h : Reachable P w) (horder : Restart.InOrder w.market.stream) :
    LabelInv P w := by
  obtain ⟨t, hreach⟩ := h
  have hinv : Inv P w ∧ (Restart.InOrder w.market.stream → LabelInv P w) := by
    refine hreach.invariant (I := fun w => Inv P w ∧
      (Restart.InOrder w.market.stream → LabelInv P w)) ⟨Inv.start P t, fun _ => ?_⟩ ?_
    · exact ⟨Inv.start P t, by rintro r ⟨⟩, by rintro i ⟨⟩⟩
    · rintro s e s' ⟨hs, hlabels⟩ hstep
      refine ⟨hs.step hstep, fun horder' => ?_⟩
      have hstream : s.market.stream <+: s'.market.stream := by
        cases steps_of_step hstep with
        | market e market hm => exact (Restart.grows_step hm).stream
        | _ => exact List.prefix_refl _
      exact (hlabels (horder'.of_prefix hstream)).step hstep horder'
  exact hinv.2 horder

/-- **Stored values stay right.** In every state that the services lead to, if the candles of each
symbol have come in the order of time, a stored realized volatility is the label of its time over
all prices stored by now, and its minutes are over. -/
theorem realized_stable (h : Reachable P w) (horder : Restart.InOrder w.market.stream) :
    ∀ r ∈ w.forecasts, ∀ v, r.realizedVol = some v →
      r.time + forwardWindow * minute ≤ w.clock ∧
        labelAt P (symbolCloses w.market.prices r.symbol) r.time = some v := by
  intro r hr v hv
  have hsettled := (h.labelInv horder).stored r hr v hv
  exact ⟨hsettled.passed, hsettled.label⟩

end Values

theorem inOrder_steady (symbol : Symbol) (n : ℕ) : Restart.InOrder (steady symbol n) := by
  intro es candle hpre _ c hc _
  have hsorted := (sorted_steady symbol n).sublist hpre.sublist
  exact (List.pairwise_append.mp hsorted).2.2 c hc candle
    (List.mem_singleton_self candle)

/-- Steady candles come in order, and a realized volatility of them is stored. -/
theorem realized_stable_steady :
    (∃ r ∈ (steadyWorld 68 (67 * minute) steadyBundle).forecasts, r.realizedVol.isSome) ∧
    ∀ r ∈ (steadyWorld 68 (67 * minute) steadyBundle).forecasts, ∀ v, r.realizedVol = some v →
      r.time + forwardWindow * minute ≤ 67 * minute ∧
        labelAt realNumerics (symbolCloses (steadyWorld 68 (67 * minute) steadyBundle).market.prices
          r.symbol) r.time = some v :=
  ⟨exists_realized_steady steadyBundle,
    realized_stable (reachable_steadyWorld _ _ _) (inOrder_steady _ 68)⟩

end PortfolioEngine.Pipeline
