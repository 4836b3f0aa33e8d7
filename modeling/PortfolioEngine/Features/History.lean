import PortfolioEngine.Features.Consume
import PortfolioEngine.Features.RealNumerics

/-!
# The ring buffer and the full history

The consume loop computes the features of a candle from the 120 candles in the ring buffer. Each
column is a composition of causal operations with a finite lookback, 61 candles at most.

1. `computeFeatures_take`: later candles never change a row.
2. `rowAt_eq`: a row from the 61st on is a function of the 61 candles that end there.
3. `ringBuffer_eq_history`: so the last row of the ring buffer is the last row of the history.
-/

namespace PortfolioEngine.Features

open Recent

variable {K : Type*} [Field K] [LinearOrder K] {P : Numerics K}

/-- Row `i` of `compute_features`, before NaN becomes NULL. -/
def rowAt (P : Numerics K) (df : List (PriceRow K)) (i : ℕ) : List (String × Option (Flt K)) :=
  (computeFeatures P df).map fun c => (c.1, c.2[i]?)

/-! ## Causality -/

theorem logReturns_take (s : Series K) (k : ℕ) :
    logReturns P (s.take k) = (logReturns P s).take k := by
  unfold logReturns
  rw [shift_take, ← List.take_zipWith, List.map_take]

omit [Field K] [LinearOrder K] in
theorem rolled_take (w : ℕ) (agg : List K → Flt K) (s : Series K) (k : ℕ) :
    rolled w agg (s.take k) = (rolled w agg s).take k := by
  unfold rolled
  exact rolling_take w .nan (ofWindow agg) s k

theorem realizedVol_take (s : Series K) (w k : ℕ) :
    realizedVol P (s.take k) w = (realizedVol P s w).take k := by
  unfold realizedVol
  rw [List.map_take, rolled_take, List.map_take]

theorem parkinsonVol_take (high low : Series K) (w k : ℕ) :
    parkinsonVol P (high.take k) (low.take k) w = (parkinsonVol P high low w).take k := by
  unfold parkinsonVol
  dsimp only
  rw [← List.take_zipWith, List.map_take, rolled_take, List.map_take]

theorem pctChange_take (s : Series K) (k : ℕ) : pctChange (s.take k) = (pctChange s).take k := by
  unfold pctChange
  rw [shift_take, ← List.take_zipWith]

theorem computeFeatures_take (df : List (PriceRow K)) (k : ℕ) :
    computeFeatures P (df.take k) = (computeFeatures P df).map fun c => (c.1, c.2.take k) := by
  unfold computeFeatures close high low volume
  simp only [List.map_append, List.map_flatMap, List.map_cons, List.map_nil, List.map_take,
    logReturns_take, pctChange_take, rolled_take, realizedVol_take, parkinsonVol_take,
    List.take_zipWith]

/-- Row `i` is the last row of the frame that ends there. -/
theorem rowAt_eq_last {df : List (PriceRow K)} {i : ℕ} (hi : i < df.length) :
    rowAt P df i = (computeFeatures P (df.take (i + 1))).map fun c => (c.1, c.2.getLast?) := by
  unfold rowAt
  rw [computeFeatures_take, List.map_map]
  refine List.map_congr_left fun c hc => ?_
  have hlen := length_column P df c hc
  simp only [Function.comp_apply, List.getLast?_eq_getElem?, List.length_take, hlen]
  rw [min_eq_left (by omega), Nat.add_sub_cancel, List.getElem?_take_of_lt (Nat.lt_succ_self i)]

theorem rowAt_append {df : List (PriceRow K)} {i : ℕ} (hi : i < df.length)
    (later : List (PriceRow K)) : rowAt P (df ++ later) i = rowAt P df i := by
  rw [rowAt_eq_last hi, rowAt_eq_last (by rw [List.length_append]; omega),
    List.take_append_of_le_length hi]

/-- A row from the 61st on is the last row of the 61 candles that end there. -/
theorem rowAt_eq {df : List (PriceRow K)} {i : ℕ} (h60 : 60 ≤ i) (hi : i < df.length) :
    rowAt P df i = rowAt P ((df.take (i + 1)).rtake 61) 60 := by
  have hlen : ((df.take (i + 1)).rtake 61).length = 61 := by
    rw [length_rtake, List.length_take]
    omega
  have htail : SameTail 61 (df.take (i + 1)) ((df.take (i + 1)).rtake 61) :=
    sameTail_rtake (by rw [List.length_take]; omega)
  rw [rowAt_eq_last hi, rowAt_eq_last (by omega), List.take_of_length_le hlen.le]
  exact lastValues_congr htail

/-! ## The ring buffer -/

omit [Field K] [LinearOrder K] in
theorem bufferToDf_of_sorted {df : List (PriceRow K)} (h : df.Pairwise fun x y => x.time < y.time) :
    bufferToDf P df = df := by
  have hnodup : (df.map PriceRow.time).Nodup := List.pairwise_map.mpr (h.imp ne_of_lt)
  have heq : ∀ x y, x ∈ P.sortIndex df → y ∈ df → x.time ≤ y.time → y.time ≤ x.time → x = y := by
    intro x y hx hy hxy hyx
    exact List.inj_on_of_nodup_map hnodup ((P.sortIndex_perm df).mem_iff.mp hx) hy
      (le_antisymm hxy hyx)
  exact List.Perm.eq_of_pairwise heq (P.sortIndex_sorted df) (h.imp le_of_lt) (P.sortIndex_perm df)

/-- **The ring buffer is enough.** For at least 62 candles of one symbol in increasing order of
time, the row that is computed from the ring buffer is the last row of the features of the whole
history; and any row from the 61st on depends on the 61 candles that end there only, so that no
later candle changes it. -/
theorem ringBuffer_eq_history (P : Numerics K) (s : Symbol) (es : List (PriceRow K))
    (hsymbol : ∀ c ∈ es, c.symbol = s) (hlen : minBuffer ≤ es.length)
    (hsorted : es.Pairwise fun x y => x.time < y.time) :
    latestFeatureRow P (bufferToDf P ((consume P es).buffers s)) =
      (rowAt P es (es.length - 1)).map (fun c => (c.1, notNan c.2)) ∧
    ∀ i, 60 ≤ i → i < es.length → rowAt P es i = rowAt P ((es.take (i + 1)).rtake 61) 60 ∧
      ∀ later, rowAt P (es ++ later) i = rowAt P es i := by
  refine ⟨?_, fun i h60 hi => ⟨rowAt_eq h60 hi, rowAt_append hi⟩⟩
  have h62 : 62 ≤ es.length := hlen
  have hbuffer : (consume P es).buffers s = es.rtake bufferSize := by
    rw [buffers_consume, List.filter_eq_self.mpr fun c hc => decide_eq_true (hsymbol c hc)]
  have htail : SameTail 61 (es.rtake bufferSize) es := by
    refine ⟨?_, by omega, rtake_rtake (by decide) es⟩
    rw [length_rtake]
    exact le_min (by decide) (by omega)
  have hsorted' : (es.rtake bufferSize).Pairwise fun x y => x.time < y.time :=
    hsorted.sublist (List.drop_sublist _ es)
  rw [hbuffer, bufferToDf_of_sorted hsorted', latestFeatureRow_congr htail, latestFeatureRow_eq]
  unfold featureRowAt rowAt
  rw [List.map_map]
  rfl

/-- 62 candles. -/
theorem ringBuffer_eq_history_steady :
    let es := steady "BTCUSDT" 62
    latestFeatureRow realNumerics
        (bufferToDf realNumerics ((consume realNumerics es).buffers "BTCUSDT")) =
      (rowAt realNumerics es (es.length - 1)).map (fun c => (c.1, notNan c.2)) ∧
    ∀ i, 60 ≤ i → i < es.length →
      rowAt realNumerics es i = rowAt realNumerics ((es.take (i + 1)).rtake 61) 60 ∧
      ∀ later, rowAt realNumerics (es ++ later) i = rowAt realNumerics es i :=
  ringBuffer_eq_history realNumerics "BTCUSDT" _ (by simp [steady, steadyCandle]) (by decide)
    (sorted_steady _ _)

end PortfolioEngine.Features
