import PortfolioEngine.Pipeline.Feed
import PortfolioEngine.Pipeline.Gates
import PortfolioEngine.Pipeline.StableLabels

/-!
# The live views

`handleLivePrices` and `handleLatestForecasts` of the gateway read the tables that the other
services fill, each request with one query. The database can fail, or end a result early, and
`c.JSON` writes nothing where a volatility is infinite or NaN.

`monotonic_reads`: a client that asks again never sees older data, whatever the services do between
two answers. A price or a forecast is replaced by a later one only, what is shown of a forecast
stays, and a page that asks for the forecasts first finds a price for each of them that is not
older.

`live_price_current`: where the feature service waits, the price that is shown of a symbol is that
of the latest kline that the ingestion has published of it.
-/

namespace PortfolioEngine.Gateway

open Tables Features Forecasting Pipeline

/-! ## The query -/

section Query

variable {ρ : Type*} (collate : Symbol → Symbol → Bool) (symbols : List Symbol)
  (symbol : ρ → Symbol) (time : ρ → ℤ)

/-- `SELECT DISTINCT ON (symbol) .. WHERE symbol = ANY($1) ORDER BY symbol, time DESC`: the latest
row of each symbol, in the order that the database has on texts. -/
def latestOfEach (rows : List ρ) : List ρ :=
  (symbols.dedup.mergeSort collate).filterMap fun s =>
    latest time (rows.filter fun r => symbol r = s)

variable {collate symbols symbol time} {rows : List ρ} {r x : ρ}

theorem mem_latestOfEach : r ∈ latestOfEach collate symbols symbol time rows ↔
    symbol r ∈ symbols ∧ latest time (rows.filter fun x => symbol x = symbol r) = some r := by
  unfold latestOfEach
  rw [List.mem_filterMap]
  constructor
  · rintro ⟨s, hs, hr⟩
    obtain rfl : symbol r = s := of_decide_eq_true (List.mem_filter.mp (mem_of_latest hr)).2
    exact ⟨List.mem_dedup.mp (List.mem_mergeSort.mp hs), hr⟩
  · rintro ⟨hs, hr⟩
    exact ⟨symbol r, List.mem_mergeSort.mpr (List.mem_dedup.mpr hs), hr⟩

theorem mem_of_mem_latestOfEach (h : r ∈ latestOfEach collate symbols symbol time rows) :
    r ∈ rows :=
  (List.mem_filter.mp (mem_of_latest (mem_latestOfEach.mp h).2)).1

/-- A row of a symbol that is asked for is found, or one that is not earlier. -/
theorem exists_latestOfEach_le (collate : Symbol → Symbol → Bool) (time : ρ → ℤ) (hx : x ∈ rows)
    (hs : symbol x ∈ symbols) :
    ∃ r ∈ latestOfEach collate symbols symbol time rows,
      symbol r = symbol x ∧ time x ≤ time r := by
  have hown : x ∈ rows.filter fun y => symbol y = symbol x :=
    List.mem_filter.mpr ⟨hx, decide_eq_true rfl⟩
  obtain ⟨r, hr⟩ := latest_isSome time hown
  have hsymbol : symbol r = symbol x :=
    of_decide_eq_true (List.mem_filter.mp (mem_of_latest hr)).2
  exact ⟨r, mem_latestOfEach.mpr ⟨hsymbol ▸ hs, hsymbol ▸ hr⟩, hsymbol, le_of_latest hr hown⟩

theorem exists_latestOfEach (collate : Symbol → Symbol → Bool)
    (hkeys : (rows.map fun r => (symbol r, time r)).Nodup) (hx : x ∈ rows)
    (hs : symbol x ∈ symbols) :
    ∃ r ∈ latestOfEach collate symbols symbol time rows,
      symbol r = symbol x ∧ (r = x ∨ time x < time r) := by
  obtain ⟨r, hr, hsymbol, hle⟩ := exists_latestOfEach_le collate time hx hs
  refine ⟨r, hr, hsymbol, ?_⟩
  rcases hle.eq_or_lt with heq | hlt
  · have hmem := mem_of_mem_latestOfEach hr
    exact Or.inl (eq_of_key_eq hkeys hmem hx (Prod.ext hsymbol heq.symm))
  · exact Or.inr hlt

theorem length_latestOfEach_le :
    (latestOfEach collate symbols symbol time rows).length ≤ symbols.length := by
  refine (List.length_filterMap_le _ _).trans ?_
  rw [List.length_mergeSort]
  exact (List.dedup_sublist symbols).length_le

theorem eq_of_mem_latestOfEach (hr : r ∈ latestOfEach collate symbols symbol time rows)
    (hx : x ∈ latestOfEach collate symbols symbol time rows) (h : symbol x = symbol r) : x = r := by
  have hlatest := (mem_latestOfEach.mp hx).2
  rw [h, (mem_latestOfEach.mp hr).2] at hlatest
  exact (Option.some.inj hlatest).symm

end Query

/-! ## The responses -/

/-- How the database answers a query: with an error, or with the first rows of the result, as many
as arrive. The handlers do not ask for `rows.Err`. -/
inductive Db where
  | error (message : String)
  | rows (arrived : ℕ)

inductive Response (α : Type*) where
  | data (out : List α)
  | internalServerError (error : String)
  /-- `c.JSON` fails, and nothing is written. -/
  | empty

section Respond

variable {ρ α : Type*}

/-- The body of both handlers, for the result of the query; `marshals` is whether JSON can hold a
point. -/
def respond (db : Db) (result : List ρ) (point : ρ → α) (marshals : α → Bool) : Response α :=
  match db with
  | .error message => .internalServerError message
  | .rows arrived =>
    let out := (result.take arrived).map point
    if out.all marshals then .data out else .empty

/-- Every row of a result for these symbols arrives. -/
def AllRows (symbols : List Symbol) (db : Db) : Prop :=
  ∃ arrived, db = .rows arrived ∧ symbols.length ≤ arrived

variable {db : Db} {result : List ρ} {point : ρ → α} {marshals : α → Bool} {out : List α}

theorem mem_of_respond (h : respond db result point marshals = .data out) {p : α} (hp : p ∈ out) :
    ∃ r ∈ result, p = point r := by
  unfold respond at h
  split at h
  · cases h
  next arrived =>
    dsimp only at h
    split_ifs at h
    cases h
    obtain ⟨r, hr, rfl⟩ := List.mem_map.mp hp
    exact ⟨r, List.mem_of_mem_take hr, rfl⟩

theorem eq_of_respond {symbols : List Symbol} (h : respond db result point marshals = .data out)
    (hdb : AllRows symbols db) (hlen : result.length ≤ symbols.length) :
    out = result.map point := by
  obtain ⟨arrived, rfl, harrived⟩ := hdb
  unfold respond at h
  dsimp only at h
  rw [List.take_of_length_le (hlen.trans harrived)] at h
  split_ifs at h
  cases h
  rfl

theorem respond_rows {arrived : ℕ} (hlen : result.length ≤ arrived)
    (h : ∀ r ∈ result, marshals (point r) = true) :
    respond (.rows arrived) result point marshals = .data (result.map point) := by
  unfold respond
  dsimp only
  rw [List.take_of_length_le hlen, if_pos]
  exact List.all_eq_true.mpr (List.forall_mem_map.mpr h)

end Respond

variable {K : Type*}

structure PricePoint (K : Type*) where
  symbol : Symbol
  time : ℤ
  close : K

structure ForecastPoint (K : Type*) where
  symbol : Symbol
  time : ℤ
  garchVol : Option (Flt K)
  xgbVol : Option (Flt K)
  realizedVol : Option (Flt K)

/-- A row of `prices` as it is scanned. -/
def pricePoint (r : PriceRow K) : PricePoint K := ⟨r.symbol, r.time, r.close⟩

/-- A row of `forecasts` as it is scanned. -/
def forecastPoint (r : ForecastRow K) : ForecastPoint K :=
  ⟨r.symbol, r.time, r.garchVol, r.xgbVol, r.realizedVol⟩

/-- `json.Marshal` takes NULLs and finite numbers. -/
def ForecastPoint.marshals (p : ForecastPoint K) : Bool :=
  [p.garchVol, p.xgbVol, p.realizedVol].all fun v => v.all fun x => x.toFin?.isSome

/-- `handleLivePrices`, for the configured symbols. -/
def handleLivePrices (collate : Symbol → Symbol → Bool) (symbols : List Symbol) (db : Db)
    (prices : List (PriceRow K)) : Response (PricePoint K) :=
  respond db (latestOfEach collate symbols PriceRow.symbol PriceRow.time prices) pricePoint
    fun _ => true

/-- `handleLatestForecasts`, for the configured symbols. -/
def handleLatestForecasts (collate : Symbol → Symbol → Bool) (symbols : List Symbol) (db : Db)
    (forecasts : List (ForecastRow K)) : Response (ForecastPoint K) :=
  respond db (latestOfEach collate symbols ForecastRow.symbol ForecastRow.time forecasts)
    forecastPoint ForecastPoint.marshals

theorem handleLivePrices_rows (collate : Symbol → Symbol → Bool) (symbols : List Symbol)
    (prices : List (PriceRow K)) : handleLivePrices collate symbols (.rows symbols.length) prices =
      .data ((latestOfEach collate symbols PriceRow.symbol PriceRow.time prices).map pricePoint) :=
  respond_rows length_latestOfEach_le fun _ _ => rfl

/-- The same forecast, whose realized volatility may have become known. -/
structure ForecastPoint.Extends (f f' : ForecastPoint K) : Prop where
  time : f'.time = f.time
  garchVol : f'.garchVol = f.garchVol
  xgbVol : f'.xgbVol = f.xgbVol
  realizedVol : f.realizedVol = none ∨ f'.realizedVol = f.realizedVol

/-! ## Two requests -/

/-- What a request in `w` shows, if all its rows arrive, is not older than what one in `s` did. -/
structure NotOlder (collate : Symbol → Symbol → Bool) (symbols : List Symbol)
    (s w : Pipeline.World K) : Prop where
  prices : ∀ db db' ps ps', handleLivePrices collate symbols db s.market.prices = .data ps →
    handleLivePrices collate symbols db' w.market.prices = .data ps' → AllRows symbols db' →
    ∀ p ∈ ps, ∃ p' ∈ ps', p'.symbol = p.symbol ∧ (p' = p ∨ p.time < p'.time)
  forecasts : ∀ db db' fs fs', handleLatestForecasts collate symbols db s.forecasts = .data fs →
    handleLatestForecasts collate symbols db' w.forecasts = .data fs' → AllRows symbols db' →
    ∀ f ∈ fs, ∃ f' ∈ fs', f'.symbol = f.symbol ∧ (f.Extends f' ∨ f.time < f'.time)
  priced : ∀ db db' fs ps', handleLatestForecasts collate symbols db s.forecasts = .data fs →
    handleLivePrices collate symbols db' w.market.prices = .data ps' → AllRows symbols db' →
    ∀ f ∈ fs, ∃ p ∈ ps', p.symbol = f.symbol ∧ f.time ≤ p.time

variable {s w : Pipeline.World K} {collate : Symbol → Symbol → Bool} {symbols : List Symbol}

/-- A stored forecast is there later, with its realized volatility if it has one. -/
theorem exists_extends (h : Kept s w) {r : ForecastRow K} (hr : r ∈ s.forecasts) :
    ∃ x ∈ w.forecasts, x.symbol = r.symbol ∧ (forecastPoint r).Extends (forecastPoint x) := by
  cases hv : r.realizedVol with
  | some v =>
    exact ⟨r, h.realized r hr (by rw [hv]; rfl), rfl, rfl, rfl, rfl, Or.inr rfl⟩
  | none =>
    obtain ⟨x, hx, hpredicted⟩ :=
      List.mem_map.mp (h.predictions.subset (List.mem_map_of_mem hr))
    obtain ⟨hkey, hvols⟩ := Prod.mk.inj hpredicted
    obtain ⟨hsymbol, htime⟩ := Prod.mk.inj hkey
    obtain ⟨hgarch, hxgb⟩ := Prod.mk.inj hvols
    exact ⟨x, hx, hsymbol, htime, hgarch, hxgb, Or.inl hv⟩

theorem exists_pricePoint (h : Integrity w) {db : Db} {ps : List (PricePoint K)}
    (hps : handleLivePrices collate symbols db w.market.prices = .data ps)
    (hdb : AllRows symbols db) {x : PriceRow K} (hx : x ∈ w.market.prices)
    (hs : x.symbol ∈ symbols) :
    ∃ p ∈ ps, p.symbol = x.symbol ∧ (p = pricePoint x ∨ x.time < p.time) := by
  obtain ⟨r, hr, hsymbol, hlater⟩ := exists_latestOfEach collate h.uniquePrices hx hs
  rw [eq_of_respond hps hdb length_latestOfEach_le]
  exact ⟨pricePoint r, List.mem_map_of_mem hr, hsymbol, hlater.imp_left (congrArg pricePoint)⟩

variable [Field K] [LinearOrder K] {P : Numerics K}

/-- **Reads are monotonic.** Between an answer and a later one, whatever the services do and
wherever they are killed, a price that was shown is still shown or a later one is; so is a forecast,
with the volatilities that it had; and for each forecast shown at first there is a price that is not
older. -/
theorem monotonic_reads {es : List (Pipeline.Event K)} (h : Pipeline.Reachable P s)
    (hrun : Runs.run (Pipeline.step P) s es = some w) (collate : Symbol → Symbol → Bool)
    (symbols : List Symbol) : NotOlder collate symbols s w := by
  have hkept := kept_of_run h hrun
  have hbefore := h.inv.references
  have hafter : Integrity w := by
    obtain ⟨t, hreach⟩ := h
    have hreach' : Pipeline.Reachable P w := ⟨t, hreach.trans ⟨es, hrun⟩⟩
    exact hreach'.inv.references
  refine ⟨fun db db' ps ps' hps hps' hdb p hp => ?_, fun db db' fs fs' hfs hfs' hdb f hf => ?_,
    fun db db' fs ps' hfs hps' hdb f hf => ?_⟩
  · obtain ⟨r, hr, rfl⟩ := mem_of_respond hps hp
    exact exists_pricePoint hafter hps' hdb (hkept.prices.subset (mem_of_mem_latestOfEach hr))
      (mem_latestOfEach.mp hr).1
  · obtain ⟨r, hr, rfl⟩ := mem_of_respond hfs hf
    obtain ⟨x, hx, hxsymbol, hextends⟩ := exists_extends hkept (mem_of_mem_latestOfEach hr)
    obtain ⟨r', hr', hsymbol, hlater⟩ := exists_latestOfEach collate
      hafter.uniqueForecasts hx (hxsymbol ▸ (mem_latestOfEach.mp hr).1)
    rw [eq_of_respond hfs' hdb length_latestOfEach_le]
    refine ⟨forecastPoint r', List.mem_map_of_mem hr', hsymbol.trans hxsymbol, ?_⟩
    rcases hlater with rfl | hlt
    · exact Or.inl hextends
    · exact Or.inr (hextends.time ▸ hlt)
  · -- The forecast belongs to features, and these to a price.
    obtain ⟨r, hr, rfl⟩ := mem_of_respond hfs hf
    obtain ⟨_, g, hg, hgkey, _⟩ := hbefore.featured r (mem_of_mem_latestOfEach hr)
    obtain ⟨x, hx, hxkey⟩ := List.mem_map.mp (hbefore.priced g hg)
    obtain ⟨hxsymbol, hxtime⟩ := Prod.mk.inj (hxkey.trans hgkey)
    obtain ⟨p, hp, hsymbol, hlater⟩ := exists_pricePoint hafter hps' hdb
      (hkept.prices.subset hx) (hxsymbol ▸ (mem_latestOfEach.mp hr).1)
    refine ⟨p, hp, hsymbol.trans hxsymbol, ?_⟩
    have htime : (forecastPoint r).time = x.time := hxtime.symm
    rw [htime]
    rcases hlater with rfl | hlt
    · exact le_rfl
    · exact hlt.le

section Steady

variable (n : ℕ) (t : ℤ)

/-- The models answer 1. -/
theorem vols_steadyWorld {r : ForecastRow ℝ} (hr : r ∈ (steadyWorld n t steadyBundle).forecasts) :
    r.garchVol = some (.fin 1) ∧ r.xgbVol = some (.fin 1) := by
  have hpredicted := List.mem_map_of_mem (f := ForecastRow.predicted) hr
  have hforecasts := predicted_inferSymbol realNumerics "BTCUSDT"
    ((turnWorld realNumerics t (steady "BTCUSDT" n)).visit (some steadyBundle)) []
  rw [show (steadyWorld n t steadyBundle).forecasts = inferSymbol realNumerics "BTCUSDT"
    ((turnWorld realNumerics t (steady "BTCUSDT" n)).visit (some steadyBundle)) [] from rfl,
    hforecasts] at hpredicted
  obtain ⟨x, hx, heq⟩ := List.mem_map.mp hpredicted
  obtain ⟨-, hvols⟩ := Prod.mk.inj heq
  obtain ⟨hgarch, hxgb⟩ := Prod.mk.inj hvols
  obtain ⟨hgarch', hxgb'⟩ :=
    mem_preds ((mem_of_mem_insertForecasts hx).resolve_left List.not_mem_nil)
  rw [← hgarch, ← hxgb]
  refine ⟨hgarch', ?_⟩
  obtain ⟨y, hy, hxy⟩ := List.mem_map.mp hxgb'
  obtain ⟨_, -, rfl⟩ := List.mem_map.mp hy
  exact hxy.symm

theorem realizedVol_steadyWorld {r : ForecastRow ℝ}
    (hr : r ∈ (steadyWorld n t steadyBundle).forecasts) {v : Flt ℝ} (hv : r.realizedVol = some v) :
    ∃ x, v = .fin x := by
  have hlabels := (reachable_steadyWorld n t steadyBundle).labelInv (inOrder_steady "BTCUSDT" n)
  have hlabel := (hlabels.stored r hr v hv).label
  have hkeys := hlabels.references.uniquePrices
  rw [prices_steadyWorld] at hlabel hkeys
  rw [← keys_floats] at hkeys
  have hclose : ∀ p ∈ floats (steady "BTCUSDT" n), ∃ c, 0 < c ∧ p.close = .fin c := by
    intro p hp
    obtain ⟨c, hc, rfl⟩ := List.mem_map.mp hp
    exact ⟨c.close, (valid_steady c hc).close_pos, rfl⟩
  obtain ⟨closes, -, hiff⟩ :=
    aheadLabel_closes realFunctions_realNumerics hclose r.symbol r.time
  unfold symbolCloses at hlabel
  rw [labelAt_prices _ hkeys] at hlabel
  exact ⟨_, ((hiff v).mp hlabel).2⟩

theorem marshals_steadyWorld {r : ForecastRow ℝ}
    (hr : r ∈ (steadyWorld n t steadyBundle).forecasts) : (forecastPoint r).marshals = true := by
  obtain ⟨hgarch, hxgb⟩ := vols_steadyWorld n t hr
  unfold ForecastPoint.marshals forecastPoint
  rw [hgarch, hxgb]
  cases hv : r.realizedVol with
  | none => rfl
  | some v =>
    obtain ⟨x, rfl⟩ := realizedVol_steadyWorld n t hr hv
    rfl

theorem exists_shown (hn : 61 < n) : ∃ fs, handleLatestForecasts (fun a b => a ≤ b) [ "BTCUSDT"]
    (.rows 1) (steadyWorld n t steadyBundle).forecasts = .data fs ∧ fs ≠ [] := by
  obtain ⟨r, hr, hkey⟩ := List.mem_map.mp (mem_keys_steadyWorld t steadyBundle hn)
  have hsymbol : r.symbol ∈ [ "BTCUSDT"] := List.mem_singleton.mpr (congrArg Prod.fst hkey)
  obtain ⟨x, hx, -⟩ := exists_latestOfEach_le (fun a b => a ≤ b) ForecastRow.time hr hsymbol
  refine ⟨_, respond_rows length_latestOfEach_le fun y hy => ?_, ?_⟩
  · exact marshals_steadyWorld n t (mem_of_mem_latestOfEach hy)
  · exact List.ne_nil_of_mem (List.mem_map_of_mem hx)

/-- The inference loop is killed after the first turn. -/
theorem monotonic_reads_steady : ∃ (s w : Pipeline.World ℝ) (fs : List (ForecastPoint ℝ)),
    handleLatestForecasts (fun a b => a ≤ b) [ "BTCUSDT"] (.rows 1) s.forecasts = .data fs ∧
    fs ≠ [] ∧ Runs.run (Pipeline.step realNumerics) s [.crash] = some w ∧
    NotOlder (fun a b => a ≤ b) [ "BTCUSDT"] s w := by
  obtain ⟨fs, hfs, hne⟩ := exists_shown 68 (67 * minute) (by decide)
  have hrun : Runs.run (Pipeline.step realNumerics) (steadyWorld 68 (67 * minute) steadyBundle)
      [.crash] = some { steadyWorld 68 (67 * minute) steadyBundle with inference := none } := rfl
  exact ⟨_, _, fs, hfs, hne, hrun, monotonic_reads (reachable_steadyWorld _ _ _) hrun _ _⟩

end Steady

/-! ## The latest kline -/

section Current

open Ingestion (KlineEntry)
open Features.Reader (readRow)
open Feed (Evicted)

variable {K : Type} [Field K] [LinearOrder K] {P : Numerics K} {B : Builtins K}
  {w : Feed.World K}

/-- The entry is that of the latest kline of its symbol among those that were published. -/
structure Newest (B : Builtins K) (w : Feed.World K) (e : KlineEntry) (candle : PriceRow K) :
    Prop where
  published : e ∈ w.ingestion.stores.klineStream
  read : readRow B e = some candle
  newest : ∀ e' ∈ w.ingestion.stores.klineStream, ∀ r ∈ readRow B e',
    r.symbol = candle.symbol → r.time ≤ candle.time

/-- **The live price is current.** In every run of the ingestion and the feature service in which no
entry is evicted under a life that is still to receive it, once the feature service waits: of a
symbol that is asked for, an answer shows exactly one price, at the time of the latest kline that
was published of it, unless that has been evicted. -/
theorem live_price_current {events : List Feed.Event}
    (hrun : Runs.run (Feed.step P B) Feed.World.start events = some w)
    (hkeeps : Runs.Along (Feed.step P B) Feed.Keeps Feed.World.start events)
    {l : Features.Reader.Session KlineEntry K} (hl : w.features.service = some l)
    (hwaits : l.Waits w.features) {e : KlineEntry} {candle : PriceRow K}
    (hnewest : Newest B w e candle) (hleft : ¬ Evicted w e) (collate : Symbol → Symbol → Bool)
    {symbols : List Symbol} (hsymbol : candle.symbol ∈ symbols) {db : Db}
    {ps : List (PricePoint K)}
    (hps : handleLivePrices collate symbols db w.features.prices = .data ps)
    (hdb : AllRows symbols db) :
    ∃ p ∈ ps, p.symbol = candle.symbol ∧ p.time = candle.time ∧
      ∀ q ∈ ps, q.symbol = candle.symbol → q = p := by
  have hinv := Feed.Inv.of_run hrun hkeeps
  obtain ⟨row, hrow, hkey⟩ := hinv.complete hl hwaits hnewest.published hleft
  obtain rfl := Option.some.inj (hnewest.read.symm.trans hrow)
  obtain ⟨x, hx, hxkey⟩ := List.mem_map.mp hkey
  obtain ⟨hxsymbol, hxtime⟩ := Prod.mk.inj hxkey
  have hasked : x.symbol ∈ symbols := hxsymbol ▸ hsymbol
  obtain ⟨r, hr, hrsymbol, hlater⟩ := exists_latestOfEach_le collate PriceRow.time hx hasked
  rw [eq_of_respond hps hdb length_latestOfEach_le]
  refine ⟨pricePoint r, List.mem_map_of_mem hr, hrsymbol.trans hxsymbol, ?_, fun q hq hqs => ?_⟩
  · -- The row that is shown was published as well.
    obtain ⟨e', he', hread⟩ := hinv.sound (mem_of_mem_latestOfEach hr)
    exact le_antisymm (hnewest.newest e' he' r hread (hrsymbol.trans hxsymbol)) (hxtime ▸ hlater)
  · obtain ⟨y, hy, rfl⟩ := List.mem_map.mp hq
    rw [eq_of_mem_latestOfEach hr hy (hqs.trans (hrsymbol.trans hxsymbol).symm)]

/-- The candle of the message is newer than that of the response. -/
theorem live_price_current_first : ∃ (w : Feed.World ℝ) (ps : List (PricePoint ℝ)),
    handleLivePrices (fun a b => a ≤ b) [ "BTCUSDT"] (.rows 1) w.features.prices = .data ps ∧
    ∃ p ∈ ps, p.symbol = "BTCUSDT" ∧ p.time = 120000000 ∧
      ∀ q ∈ ps, q.symbol = "BTCUSDT" → q = p := by
  obtain ⟨events, w, l, hrun, hkeeps, hl, hwaits, hdropped, hlog⟩ := Feed.exists_waiting
  obtain ⟨k, k', hklines, hread, hread'⟩ := Feed.read_firstKlines
  have hstream : w.ingestion.stores.klineStream = [k.entry, k'.entry] := by
    rw [← (Feed.Inv.of_run hrun hkeeps).stream, hlog, hklines]
    rfl
  have hnewest : Newest Features.Reader.unitBuiltins w k'.entry (Feed.oneRow 120000000) := by
    refine ⟨?_, hread', fun e he r hr _ => ?_⟩
    · rw [hstream]
      exact List.mem_pair.mpr (Or.inr rfl)
    · rw [hstream, List.mem_pair] at he
      rcases he with rfl | rfl
      · rw [hread] at hr
        cases hr
        decide
      · rw [hread'] at hr
        cases hr
        exact le_rfl
  have hleft : ¬ Evicted w k'.entry := by
    unfold Evicted
    rw [hdropped]
    exact List.not_mem_nil
  have hps := handleLivePrices_rows (fun a b => a ≤ b) [ "BTCUSDT"] w.features.prices
  exact ⟨w, _, hps, live_price_current hrun hkeeps hl hwaits hnewest hleft _
    (List.mem_singleton_self _) hps ⟨1, rfl, le_rfl⟩⟩

end Current

end PortfolioEngine.Gateway
