import Mathlib.Data.List.Infix
import PortfolioEngine.Features.Compute

/-!
# The consume loop

`main` of `feature_engineering/main.py`, from the candles that the stream entries hold to the
tables `prices` and `features`. Each candle is stored, appended to the ring buffer of its symbol
and, once the buffer has 62 candles, the last row of the features of the sorted buffer is stored
under the timestamp of the candle.

The table `features` is described by the candles that store a row: the first one of each key that
meets a warm buffer.
-/

namespace PortfolioEngine.Features

open Recent Tables

variable {K : Type*} [Field K] [LinearOrder K]

/-! ## The loop -/

/-- `BUFFER_SIZE`. -/
def bufferSize : ℕ := 120

/-- `MIN_BUFFER`. -/
def minBuffer : ℕ := rollingWindows.foldr max 0 + 2

/-- A row of `features`. -/
structure FeatureRow (K : Type*) where
  time : ℤ
  symbol : Symbol
  values : List (Option (Flt K))

/-- The unique index `(symbol, time)` of `features`. -/
def FeatureRow.key (r : FeatureRow K) : Symbol × ℤ := (r.symbol, r.time)

/-- The tables and the ring buffers. -/
structure Stores (K : Type*) where
  prices : List (PriceRow K)
  features : List (FeatureRow K)
  buffers : Symbol → List (PriceRow K)

/-- `_buffer_to_df`. -/
def bufferToDf (P : Numerics K) (buf : List (PriceRow K)) : List (PriceRow K) := P.sortIndex buf

/-- The row that `insert_features` inserts. -/
def featureRow (ts : ℤ) (symbol : Symbol) (featRow : List (String × Option (Flt K))) :
    FeatureRow K :=
  ⟨ts, symbol, featureCols.map fun c => (featRow.lookup c).join⟩

/-- One message of the loop. -/
def consumeOne (P : Numerics K) (st : Stores K) (candle : PriceRow K) : Stores K :=
  let prices := insertNew PriceRow.key candle st.prices
  let buf := push bufferSize (st.buffers candle.symbol) candle
  let buffers := Function.update st.buffers candle.symbol buf
  if minBuffer ≤ buf.length then
    let featRow := latestFeatureRow P (bufferToDf P buf)
    let row := featureRow candle.time candle.symbol featRow
    { prices, buffers, features := insertNew FeatureRow.key row st.features }
  else { prices, buffers, features := st.features }

/-- The stores after the candles `es`. -/
def consume (P : Numerics K) (es : List (PriceRow K)) : Stores K :=
  es.foldl (consumeOne P) ⟨[], [], fun _ => []⟩

/-! ## The ring buffers -/

/-- The last 120 candles of the symbol of `candle`, itself included, after `es`. -/
def buffer (es : List (PriceRow K)) (candle : PriceRow K) : List (PriceRow K) :=
  ((es ++ [candle]).filter fun r => r.symbol = candle.symbol).rtake bufferSize

theorem consume_concat (P : Numerics K) (es : List (PriceRow K)) (candle : PriceRow K) :
    consume P (es ++ [candle]) = consumeOne P (consume P es) candle := by
  unfold consume
  rw [List.foldl_concat]

theorem buffers_consumeOne (P : Numerics K) (st : Stores K) (candle : PriceRow K) :
    (consumeOne P st candle).buffers =
      Function.update st.buffers candle.symbol
        (push bufferSize (st.buffers candle.symbol) candle) := by
  unfold consumeOne
  simp only
  split_ifs <;> rfl

theorem buffers_consume (P : Numerics K) (es : List (PriceRow K)) (s : Symbol) :
    (consume P es).buffers s = (es.filter fun r => r.symbol = s).rtake bufferSize := by
  induction es using List.reverseRecOn with
  | nil => rfl
  | append_singleton es candle ih =>
    rw [consume_concat, buffers_consumeOne, List.filter_append]
    by_cases hs : s = candle.symbol
    · subst hs
      rw [Function.update_self, ih, push_rtake]
      simp
    · rw [Function.update_of_ne hs, ih]
      simp [Ne.symm hs]

theorem push_consume (P : Numerics K) (es : List (PriceRow K)) (candle : PriceRow K) :
    push bufferSize ((consume P es).buffers candle.symbol) candle = buffer es candle := by
  rw [buffers_consume, push_rtake]
  unfold buffer
  rw [List.filter_append]
  simp

omit [Field K] [LinearOrder K] in
theorem mem_buffer_self (es : List (PriceRow K)) (c : PriceRow K) : c ∈ buffer es c := by
  unfold buffer
  rw [List.filter_append, List.filter_singleton]
  simp [bufferSize, List.rtake_concat_succ]

omit [Field K] [LinearOrder K] in
theorem length_buffer_le (es : List (PriceRow K)) (c : PriceRow K) :
    (buffer es c).length ≤ es.length + 1 := by
  unfold buffer
  rw [length_rtake]
  refine (min_le_right _ _).trans ((List.length_filter_le _ _).trans ?_)
  rw [List.length_append, List.length_singleton]

/-! ## The tables -/

/-- The buffer is long enough for a row. -/
def Warm (es : List (PriceRow K)) (candle : PriceRow K) : Prop :=
  minBuffer ≤ (buffer es candle).length

/-- The row computed for `candle` after `es`. -/
def rowFor (P : Numerics K) (es : List (PriceRow K)) (candle : PriceRow K) : FeatureRow K :=
  featureRow candle.time candle.symbol (latestFeatureRow P (bufferToDf P (buffer es candle)))

theorem rowFor_key (P : Numerics K) (es : List (PriceRow K)) (candle : PriceRow K) :
    (rowFor P es candle).key = candle.key := rfl

theorem features_consume (P : Numerics K) (es : List (PriceRow K)) (candle : PriceRow K) :
    (consume P (es ++ [candle])).features =
      if minBuffer ≤ (buffer es candle).length then
        insertNew FeatureRow.key (rowFor P es candle) (consume P es).features
      else (consume P es).features := by
  rw [consume_concat]
  unfold consumeOne
  simp only [push_consume]
  split_ifs <;> rfl

omit [Field K] [LinearOrder K] in
/-- Rows with the same values have the same value in every column. -/
theorem lookup_eq_of_featureRow_eq {ts : ℤ} {s : Symbol} {a b : List (String × Option (Flt K))}
    (h : featureRow ts s a = featureRow ts s b) {col : String} (hcol : col ∈ featureCols) :
    (a.lookup col).join = (b.lookup col).join :=
  List.map_inj_left.mp (FeatureRow.mk.inj h).2.2 col hcol

/-- A candle with the key has met a warm buffer. -/
def Computed (es : List (PriceRow K)) (key : Symbol × ℤ) : Prop :=
  ∃ es₁ candle, es₁ ++ [candle] <+: es ∧ candle.key = key ∧ Warm es₁ candle

/-- The candle after `es` stores a row: its buffer is warm and its key is new. -/
def StoresRow (es : List (PriceRow K)) (candle : PriceRow K) : Prop :=
  Warm es candle ∧ ¬ Computed es candle.key

omit [Field K] [LinearOrder K] in
theorem computed_concat {es : List (PriceRow K)} {candle : PriceRow K} {key : Symbol × ℤ} :
    Computed (es ++ [candle]) key ↔ Computed es key ∨ candle.key = key ∧ Warm es candle := by
  constructor
  · rintro ⟨es₁, c, hpre, hkey, hwarm⟩
    rcases concat_prefix_concat.mp hpre with hpre | ⟨rfl, rfl⟩
    · exact Or.inl ⟨es₁, c, hpre, hkey, hwarm⟩
    · exact Or.inr ⟨hkey, hwarm⟩
  · rintro (⟨es₁, c, hpre, hkey, hwarm⟩ | ⟨hkey, hwarm⟩)
    · exact ⟨es₁, c, hpre.trans (List.prefix_append es _), hkey, hwarm⟩
    · exact ⟨es, candle, List.prefix_refl _, hkey, hwarm⟩

theorem mem_keys_features (P : Numerics K) (es : List (PriceRow K)) (key : Symbol × ℤ) :
    key ∈ (consume P es).features.map FeatureRow.key ↔ Computed es key := by
  induction es using List.reverseRecOn with
  | nil =>
    constructor
    · intro h; cases h
    · rintro ⟨es₁, c, hpre, _⟩
      exact absurd hpre not_concat_prefix_nil
  | append_singleton es candle ih =>
    rw [features_consume, computed_concat, ← ih]
    split_ifs with hwarm
    · rw [List.mem_map, List.mem_map]
      constructor
      · rintro ⟨r, hr, rfl⟩
        rcases mem_insertNew.mp hr with hr | ⟨_, rfl⟩
        · exact Or.inl ⟨r, hr, rfl⟩
        · exact Or.inr ⟨rfl, hwarm⟩
      · rintro (⟨r, hr, rfl⟩ | ⟨rfl, _⟩)
        · exact ⟨r, mem_insertNew.mpr (Or.inl hr), rfl⟩
        · by_cases hmem : candle.key ∈ (consume P es).features.map FeatureRow.key
          · obtain ⟨r, hr, hkey⟩ := List.mem_map.mp hmem
            exact ⟨r, mem_insertNew.mpr (Or.inl hr), hkey⟩
          · exact ⟨_, mem_insertNew.mpr (Or.inr ⟨hmem, rfl⟩), rfl⟩
    · exact ⟨Or.inl, fun h => h.resolve_right fun hc => hwarm hc.2⟩

theorem nodup_features (P : Numerics K) (es : List (PriceRow K)) :
    ((consume P es).features.map FeatureRow.key).Nodup := by
  induction es using List.reverseRecOn with
  | nil => exact List.nodup_nil
  | append_singleton es candle ih =>
    rw [features_consume]
    split_ifs
    · exact nodup_insertNew ih
    · exact ih

/-- The rows of `features`: one for each candle that stores a row. -/
theorem mem_features (P : Numerics K) (es : List (PriceRow K)) (r : FeatureRow K) :
    r ∈ (consume P es).features ↔
      ∃ es₁ candle, es₁ ++ [candle] <+: es ∧ StoresRow es₁ candle ∧ r = rowFor P es₁ candle := by
  induction es using List.reverseRecOn with
  | nil =>
    constructor
    · intro h; cases h
    · rintro ⟨es₁, c, hpre, _⟩
      exact absurd hpre not_concat_prefix_nil
  | append_singleton es candle ih =>
    have hnew : r ∈ (consume P (es ++ [candle])).features ↔ r ∈ (consume P es).features ∨
        StoresRow es candle ∧ r = rowFor P es candle := by
      unfold StoresRow
      rw [features_consume, ← mem_keys_features P es candle.key]
      split_ifs with hwarm
      · rw [mem_insertNew]
        exact or_congr Iff.rfl ⟨fun h => ⟨⟨hwarm, h.1⟩, h.2⟩, fun h => ⟨h.1.2, h.2⟩⟩
      · exact ⟨Or.inl, fun h => h.resolve_right fun hc => hwarm hc.1.1⟩
    rw [hnew, ih]
    constructor
    · rintro (⟨es₁, c, hpre, h⟩ | h)
      · exact ⟨es₁, c, hpre.trans (List.prefix_append es _), h⟩
      · exact ⟨es, candle, List.prefix_refl _, h⟩
    · rintro ⟨es₁, c, hpre, h⟩
      rcases concat_prefix_concat.mp hpre with hpre | ⟨rfl, rfl⟩
      · exact Or.inl ⟨es₁, c, hpre, h⟩
      · exact Or.inr h

end PortfolioEngine.Features
