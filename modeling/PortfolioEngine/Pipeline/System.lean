import PortfolioEngine.Features.Cursors
import PortfolioEngine.Forecasting.Queue
import PortfolioEngine.Forecasting.RealizedVol

/-!
# The services on one database

Feature engineering and forecasting run side by side on the tables `prices`, `features` and
`forecasts`, while candles are added to the stream. Each service can be killed at any point, and
each call to the database is an event of its own, so that everything can happen between two calls
of the other service. An insert or an update of several rows is one event a row.

`cycle_eq_runInference`: with nothing in between, the calls of a cycle are `run_inference`.
-/

namespace PortfolioEngine.Pipeline

open Tables Features Forecasting

variable {K : Type*} [Field K] [LinearOrder K]

/-! ## The system -/

/-- How far `run_inference` is: its next call to the database. -/
inductive Inference (K : Type*) where
  | sleeping
  /-- The features of the first symbol, which has its turn. -/
  | turn (symbols : List Symbol)
  | inserting (symbol : Symbol) (rows : List (ForecastRow K)) (rest : List Symbol)
  /-- The times of the forecasts without a realized volatility. -/
  | missing (symbol : Symbol) (rest : List Symbol)
  /-- The prices for these times. -/
  | pricing (symbol : Symbol) (first : ℤ) (later : List ℤ) (rest : List Symbol)
  | updating (symbol : Symbol) (updates : List (Flt K × ℤ)) (rest : List Symbol)

/-- The clock, the stream with the tables of feature engineering, the table `forecasts` and the
inference loop, if its service is up. -/
structure World (K : Type*) where
  clock : ℤ
  market : Restart.World K
  forecasts : List (ForecastRow K)
  inference : Option (Inference K)

inductive Event (K : Type*) where
  | tick (t : ℤ)
  | market (e : Restart.Event K)
  | launch
  | cycle
  /-- The next call; `bundle` are the models of the symbol and what they answer. -/
  | call (bundle : Option (Bundle K))
  | raise
  | crash

/-- The closes that the frames of the forecasting service hold. -/
def floats (prices : List (PriceRow K)) : List (PriceRow (Flt K)) :=
  prices.map fun r =>
    ⟨r.time, r.symbol, .fin r.opening, .fin r.high, .fin r.low, .fin r.close, .fin r.volume⟩

omit [Field K] [LinearOrder K] in
theorem keys_floats (prices : List (PriceRow K)) :
    (floats prices).map PriceRow.key = prices.map PriceRow.key := by
  unfold floats
  rw [List.map_map]
  rfl

/-- The `updates` of `_backfill_realized_vol`. -/
def realizedUpdates (P : Numerics K) (pricesDf : List (ℤ × Flt K)) (missingTimes : List ℤ) :
    List (Flt K × ℤ) :=
  if pricesDf.isEmpty then []
  else
    let rv := computeForwardRealizedVol P (pricesDf.map Prod.snd) forwardWindow
    let rvByTime := (pricesDf.map Prod.fst).zip rv
    missingTimes.filterMap fun ts => (notNan (rvByTime.lookup ts)).map fun v => (v, ts)

/-- The next call of `run_inference`: where it is then, and `forecasts`. -/
def call (P : Numerics K) (w : World K) (bundle : Option (Bundle K)) :
    Inference K → Option (Inference K × List (ForecastRow K))
  | .sleeping => none
  | .turn [] => some (.sleeping, w.forecasts)
  | .turn (symbol :: rest) =>
    match bundle with
    | none => some (.turn rest, w.forecasts)
    | some bundle =>
      let df := fetchUnforecastedFeatures w.market.features w.forecasts symbol queryLimit
      if df.isEmpty then some (.missing symbol rest, w.forecasts)
      else
        let valid := df.filter fun f => Complete f
        if valid.isEmpty then some (.missing symbol rest, w.forecasts)
        else some (.inserting symbol (preds symbol bundle valid) rest, w.forecasts)
  | .inserting symbol [] rest => some (.missing symbol rest, w.forecasts)
  | .inserting symbol (row :: rows) rest =>
    some (.inserting symbol rows rest, insertNew ForecastRow.key row w.forecasts)
  | .missing symbol rest =>
    match fetchForecastsMissingRealized w.forecasts symbol forwardWindow w.clock with
    | [] => some (.turn rest, w.forecasts)
    | first :: later => some (.pricing symbol first later rest, w.forecasts)
  | .pricing symbol first later rest =>
    let pricesDf := fetchPricesSince (floats w.market.prices) symbol (first - minute)
    some (.updating symbol (realizedUpdates P pricesDf (first :: later)) rest, w.forecasts)
  | .updating _ [] rest => some (.turn rest, w.forecasts)
  | .updating symbol (update :: updates) rest =>
    some (.updating symbol updates rest, setRealizedVol symbol w.forecasts update)

/-- One event. -/
def step (P : Numerics K) (w : World K) : Event K → Option (World K)
  | .tick t => if w.clock ≤ t then some { w with clock := t } else none
  | .market e => (Restart.step P w.market e).map fun market => { w with market }
  | .launch =>
    match w.inference with
    | none => some { w with inference := some .sleeping }
    | some _ => none
  | .cycle =>
    match w.inference with
    | some .sleeping => some { w with inference := some (.turn symbols) }
    | _ => none
  | .call bundle =>
    w.inference.bind fun inference =>
      (call P w bundle inference).map fun next =>
        { w with inference := some next.1, forecasts := next.2 }
  -- What `run_inference` raises, the loop only logs.
  | .raise => w.inference.map fun _ => { w with inference := some .sleeping }
  | .crash => some { w with inference := none }

/-- No service is up and nothing is stored at the instant `t`. -/
def World.start (t : ℤ) : World K := ⟨t, Restart.World.start [] [] [], [], none⟩

/-- The worlds that the events lead to. -/
def Reachable (P : Numerics K) (w : World K) : Prop :=
  ∃ t, Runs.Reachable (step P) (World.start t) w

/-! ## What one event does -/

/-- What the turn of a symbol reads. -/
def World.visit (w : World K) (bundle : Option (Bundle K)) : Visit K :=
  ⟨bundle, w.market.features, floats w.market.prices, w.clock⟩

/-- What one call does, by the place of the loop: its next place, and `forecasts`. -/
inductive Calls (P : Numerics K) (w : World K) (bundle : Option (Bundle K)) :
    Inference K → Inference K → List (ForecastRow K) → Prop
  | finish : Calls P w bundle (.turn []) .sleeping w.forecasts
  | skip (symbol : Symbol) (rest : List Symbol) (model : bundle = none) :
      Calls P w bundle (.turn (symbol :: rest)) (.turn rest) w.forecasts
  | nothing (symbol : Symbol) (rest : List Symbol)
      (nothing : readable (w.visit bundle) w.forecasts symbol = []) :
      Calls P w bundle (.turn (symbol :: rest)) (.missing symbol rest) w.forecasts
  | predict (symbol : Symbol) (rest : List Symbol) (b : Bundle K) (model : bundle = some b) :
      Calls P w bundle (.turn (symbol :: rest))
        (.inserting symbol (preds symbol b (readable (w.visit bundle) w.forecasts symbol)) rest)
        w.forecasts
  | inserted (symbol : Symbol) (rest : List Symbol) :
      Calls P w bundle (.inserting symbol [] rest) (.missing symbol rest) w.forecasts
  | insert (symbol : Symbol) (row : ForecastRow K) (rows : List (ForecastRow K))
      (rest : List Symbol) :
      Calls P w bundle (.inserting symbol (row :: rows) rest) (.inserting symbol rows rest)
        (insertNew ForecastRow.key row w.forecasts)
  | complete (symbol : Symbol) (rest : List Symbol) :
      Calls P w bundle (.missing symbol rest) (.turn rest) w.forecasts
  | missing (symbol : Symbol) (first : ℤ) (later : List ℤ) (rest : List Symbol)
      (missing : fetchForecastsMissingRealized w.forecasts symbol forwardWindow w.clock =
        first :: later) :
      Calls P w bundle (.missing symbol rest) (.pricing symbol first later rest) w.forecasts
  | price (symbol : Symbol) (first : ℤ) (later : List ℤ) (rest : List Symbol) :
      Calls P w bundle (.pricing symbol first later rest)
        (.updating symbol (realizedUpdates P
          (fetchPricesSince (floats w.market.prices) symbol (first - minute)) (first :: later))
          rest) w.forecasts
  | updated (symbol : Symbol) (rest : List Symbol) :
      Calls P w bundle (.updating symbol [] rest) (.turn rest) w.forecasts
  | update (symbol : Symbol) (update : Flt K × ℤ) (updates : List (Flt K × ℤ))
      (rest : List Symbol) :
      Calls P w bundle (.updating symbol (update :: updates) rest) (.updating symbol updates rest)
        (setRealizedVol symbol w.forecasts update)

theorem calls_of_call {P : Numerics K} {w : World K} {bundle : Option (Bundle K)}
    {i : Inference K} {next : Inference K × List (ForecastRow K)}
    (h : call P w bundle i = some next) : Calls P w bundle i next.1 next.2 := by
  cases i with
  | sleeping => cases h
  | turn l =>
    cases l with
    | nil =>
      cases h
      exact .finish
    | cons symbol rest =>
      cases bundle with
      | none =>
        cases h
        exact .skip symbol rest rfl
      | some b =>
        simp only [call] at h
        -- `df.empty`, then `valid.empty`: either way the turn goes on to the realized volatility
        split_ifs at h with hdf hvalid
        · cases h
          refine .nothing symbol rest ?_
          unfold readable World.visit
          rw [List.isEmpty_iff.mp hdf]
          rfl
        · cases h
          exact .nothing symbol rest (List.isEmpty_iff.mp hvalid)
        · cases h
          exact .predict symbol rest b rfl
  | inserting symbol rows rest =>
    cases rows with
    | nil =>
      cases h
      exact .inserted symbol rest
    | cons row rows =>
      cases h
      exact .insert symbol row rows rest
  | missing symbol rest =>
    simp only [call] at h
    split at h
    · cases h
      exact .complete symbol rest
    next first later hmissing =>
      cases h
      exact .missing symbol first later rest hmissing
  | pricing symbol first later rest =>
    cases h
    exact .price symbol first later rest
  | updating symbol updates rest =>
    cases updates with
    | nil =>
      cases h
      exact .updated symbol rest
    | cons update updates =>
      cases h
      exact .update symbol update updates rest

/-- What one event does, guards included. -/
inductive Steps (P : Numerics K) (w : World K) : Event K → World K → Prop
  | tick (t : ℤ) (clock : w.clock ≤ t) : Steps P w (.tick t) { w with clock := t }
  | market (e : Restart.Event K) (market : Restart.World K)
      (moves : Restart.step P w.market e = some market) :
      Steps P w (.market e) { w with market := market }
  | launch (down : w.inference = none) :
      Steps P w .launch { w with inference := some .sleeping }
  | cycle (sleeping : w.inference = some .sleeping) :
      Steps P w .cycle { w with inference := some (.turn symbols) }
  | call (bundle : Option (Bundle K)) (i j : Inference K) (forecasts : List (ForecastRow K))
      (place : w.inference = some i) (calls : Calls P w bundle i j forecasts) :
      Steps P w (.call bundle) { w with inference := some j, forecasts := forecasts }
  | raise (up : w.inference ≠ none) : Steps P w .raise { w with inference := some .sleeping }
  | crash : Steps P w .crash { w with inference := none }

theorem steps_of_step {P : Numerics K} {w w' : World K} {e : Event K} (h : step P w e = some w') :
    Steps P w e w' := by
  cases e with
  | tick t =>
    simp only [step] at h
    split_ifs at h with ht
    cases h
    exact .tick t ht
  | market e =>
    obtain ⟨market, hm, rfl⟩ := Option.map_eq_some_iff.mp h
    exact .market e market hm
  | launch =>
    simp only [step] at h
    split at h
    · cases h
      exact .launch ‹_›
    · cases h
  | cycle =>
    simp only [step] at h
    split at h
    · cases h
      exact .cycle ‹_›
    · cases h
  | call bundle =>
    obtain ⟨i, hi, h⟩ := Option.bind_eq_some_iff.mp h
    obtain ⟨next, hnext, rfl⟩ := Option.map_eq_some_iff.mp h
    exact .call bundle i next.1 next.2 hi (calls_of_call hnext)
  | raise =>
    obtain ⟨i, hi, rfl⟩ := Option.map_eq_some_iff.mp h
    exact .raise (by rw [hi]; exact Option.some_ne_none i)
  | crash =>
    cases h
    exact .crash

/-! ## A cycle on its own -/

section Cycle

variable {P : Numerics K} {w w' w'' : World K}

variable (P) in
/-- The inference loop goes from one state to the other by its calls alone. -/
def Uninterrupted (w w' : World K) : Prop :=
  ∃ bundles : List (Option (Bundle K)), Runs.run (step P) w (bundles.map .call) = some w'

theorem Uninterrupted.trans (h : Uninterrupted P w w') (h' : Uninterrupted P w' w'') :
    Uninterrupted P w w'' := by
  obtain ⟨bundles, hrun⟩ := h
  obtain ⟨bundles', hrun'⟩ := h'
  refine ⟨bundles ++ bundles', ?_⟩
  rw [List.map_append, Runs.run_append, hrun]
  exact hrun'

theorem Uninterrupted.call {i j : Inference K} {forecasts : List (ForecastRow K)}
    (bundle : Option (Bundle K)) (hi : w.inference = some i)
    (h : call P w bundle i = some (j, forecasts)) :
    Uninterrupted P w { w with inference := some j, forecasts := forecasts } := by
  refine ⟨[bundle], ?_⟩
  simp only [List.map_cons, List.map_nil, Runs.run, step, hi, Option.bind_some, h, Option.map_some]

theorem uninterrupted_inserts {symbol : Symbol} {rows : List (ForecastRow K)} {rest : List Symbol}
    (h : w.inference = some (.inserting symbol rows rest)) :
    Uninterrupted P w { w with
      inference := some (.missing symbol rest)
      forecasts := insertForecasts rows w.forecasts } := by
  induction rows generalizing w with
  | nil => exact .call none h rfl
  | cons row rows ih => exact (Uninterrupted.call none h rfl).trans (ih rfl)

theorem uninterrupted_updates {symbol : Symbol} {updates : List (Flt K × ℤ)} {rest : List Symbol}
    (h : w.inference = some (.updating symbol updates rest)) :
    Uninterrupted P w { w with
      inference := some (.turn rest)
      forecasts := updateRealizedVol symbol updates w.forecasts } := by
  induction updates generalizing w with
  | nil => exact .call none h rfl
  | cons update updates ih => exact (Uninterrupted.call none h rfl).trans (ih rfl)

theorem uninterrupted_backfill {symbol : Symbol} {rest : List Symbol}
    (h : w.inference = some (.missing symbol rest)) :
    Uninterrupted P w { w with
      inference := some (.turn rest)
      forecasts := backfillRealizedVol P symbol (floats w.market.prices) w.clock w.forecasts } := by
  cases hmissing : fetchForecastsMissingRealized w.forecasts symbol forwardWindow w.clock with
  | nil =>
    have hnone : backfillRealizedVol P symbol (floats w.market.prices) w.clock w.forecasts =
        w.forecasts := by
      unfold backfillRealizedVol
      rw [hmissing]
    rw [hnone]
    exact .call none h (by simp only [Pipeline.call, hmissing])
  | cons first later =>
    have hupdates : backfillRealizedVol P symbol (floats w.market.prices) w.clock w.forecasts =
        updateRealizedVol symbol (realizedUpdates P
          (fetchPricesSince (floats w.market.prices) symbol (first - minute)) (first :: later))
          w.forecasts := by
      unfold backfillRealizedVol realizedUpdates
      rw [hmissing]
      dsimp only
      split_ifs <;> rfl
    have hpricing : call P w none (.missing symbol rest) =
        some (.pricing symbol first later rest, w.forecasts) := by
      simp only [Pipeline.call, hmissing]
    rw [hupdates]
    exact ((Uninterrupted.call none h hpricing).trans (.call none rfl rfl)).trans
      (uninterrupted_updates rfl)

theorem call_of_not_readable {symbol : Symbol} {rest : List Symbol} {b : Bundle K}
    (hread : readable (w.visit (some b)) w.forecasts symbol = []) :
    call P w (some b) (.turn (symbol :: rest)) = some (.missing symbol rest, w.forecasts) := by
  have hvalid : (fetchUnforecastedFeatures w.market.features w.forecasts symbol
      queryLimit).filter (fun f => Complete f) = [] := hread
  unfold Pipeline.call
  dsimp only
  rw [hvalid, List.isEmpty_nil, if_pos rfl, ite_self]

/-- Where complete features are read, the next call makes their predictions. -/
theorem call_of_readable {symbol : Symbol} {rest : List Symbol} {b : Bundle K}
    (hread : readable (w.visit (some b)) w.forecasts symbol ≠ []) :
    call P w (some b) (.turn (symbol :: rest)) = some (.inserting symbol
      (preds symbol b (readable (w.visit (some b)) w.forecasts symbol)) rest, w.forecasts) := by
  have hdf : fetchUnforecastedFeatures w.market.features w.forecasts symbol queryLimit ≠ [] := by
    intro hnil
    unfold readable World.visit at hread
    dsimp only at hread
    rw [hnil] at hread
    exact hread rfl
  unfold Pipeline.call
  dsimp only
  rw [if_neg (by rwa [List.isEmpty_iff]), if_neg (by rwa [List.isEmpty_iff])]
  rfl

theorem uninterrupted_turn {symbol : Symbol} {rest : List Symbol} (bundle : Option (Bundle K))
    (h : w.inference = some (.turn (symbol :: rest))) :
    Uninterrupted P w { w with
      inference := some (.turn rest)
      forecasts := inferSymbol P symbol (w.visit bundle) w.forecasts } := by
  cases bundle with
  | none => exact .call none h rfl
  | some b =>
    by_cases hread : readable (w.visit (some b)) w.forecasts symbol = []
    · have hcall : call P w (some b) (.turn (symbol :: rest)) =
          some (.missing symbol rest, w.forecasts) := call_of_not_readable hread
      rw [inferSymbol_of_not_readable P rfl hread]
      exact (Uninterrupted.call (some b) h hcall).trans (uninterrupted_backfill rfl)
    · rw [inferSymbol_of_readable P rfl hread]
      exact ((Uninterrupted.call (some b) h (call_of_readable hread)).trans
        (uninterrupted_inserts rfl)).trans (uninterrupted_backfill rfl)

/-- **The calls of a cycle are `run_inference`.** From any state in which the loop sleeps, the calls
of a cycle with nothing in between lead back to sleeping, and `forecasts` is then what
`run_inference` makes of the tables as they were. -/
theorem cycle_eq_runInference (P : Numerics K) (bundles : Symbol → Option (Bundle K))
    {w : World K} (h : w.inference = some .sleeping) :
    ∃ w₁, step P w .cycle = some w₁ ∧ Uninterrupted P w₁ { w with
      forecasts := runInference P (fun symbol => w.visit (bundles symbol)) w.forecasts } := by
  have hturns : ∀ (l : List Symbol) (t : List (ForecastRow K)),
      Uninterrupted P { w with inference := some (.turn l), forecasts := t } { w with
        forecasts := l.foldl (fun t symbol =>
          inferSymbol P symbol (w.visit (bundles symbol)) t) t } := by
    intro l
    induction l with
    | nil =>
      intro t
      have hfinish := Uninterrupted.call (P := P) (w := { w with
        inference := some (.turn []), forecasts := t }) none rfl rfl
      rwa [← h] at hfinish
    | cons symbol l ih =>
      intro t
      exact (uninterrupted_turn (bundles symbol) rfl).trans (ih _)
  refine ⟨{ w with inference := some (.turn symbols) }, ?_, hturns symbols w.forecasts⟩
  simp only [step, h]

/-- A forecast of the 62nd candle, which has features, waits for its realized volatility. -/
noncomputable def waitingWorld : World ℝ :=
  ⟨67 * minute,
    Restart.handling (steady "BTCUSDT" 67) 67 (consume realNumerics (steady "BTCUSDT" 67)),
    [⟨61 * minute, "BTCUSDT", some (.fin 1), none, none⟩], some .sleeping⟩

theorem cycle_eq_runInference_waiting : ∃ w₁ : World ℝ,
    step realNumerics waitingWorld .cycle = some w₁ ∧
    Uninterrupted realNumerics w₁ { waitingWorld with
      forecasts := runInference realNumerics (fun _ => waitingWorld.visit (some steadyBundle))
        waitingWorld.forecasts } :=
  cycle_eq_runInference realNumerics (fun _ => some steadyBundle) rfl

end Cycle

/-! ## A stream on its own -/

theorem run_market {P : Numerics K} {w : World K} {es : List (Restart.Event K)}
    {market : Restart.World K}
    (h : Runs.run (Restart.step P) w.market es = some market) :
    Runs.run (step P) w (es.map .market) = some { w with market := market } := by
  induction es generalizing w with
  | nil =>
    obtain rfl := Option.some.inj h
    rfl
  | cons e es ih =>
    obtain ⟨m, hm, h'⟩ := Option.bind_eq_some_iff.mp h
    have hstep : step P w (.market e) = some { w with market := m } := by
      simp only [step, hm, Option.map_some]
    exact Option.bind_eq_some_iff.mpr ⟨_, hstep, ih h'⟩

theorem exists_run_consumed (P : Numerics K) (stream : List (PriceRow K)) :
    ∃ es, Runs.run (Restart.step P) (Restart.World.start [] [] []) es =
      some (Restart.handling stream stream.length (consume P stream)) := by
  have hxadds := Restart.run_xadds P (Restart.World.start [] [] []) stream
  have hrun := Restart.run_restart ⟨_, hxadds⟩
  refine ⟨stream.map Restart.Event.xadd ++
    ([Restart.Event.crash, Restart.Event.start] ++ Restart.inserts stream), ?_⟩
  rw [Runs.run_append, hxadds]
  exact hrun

theorem reachable_consumed (P : Numerics K) (t : ℤ) (stream : List (PriceRow K)) :
    Reachable P ⟨t, Restart.handling stream stream.length (consume P stream), [], none⟩ := by
  obtain ⟨es, hrun⟩ := exists_run_consumed P stream
  exact ⟨t, es.map .market, run_market (w := World.start t) hrun⟩

/-! ## The first turn -/

section FirstTurn

variable (P : Numerics K) (t : ℤ) (stream : List (PriceRow K)) (b : Bundle K)

/-- The inference loop comes to the first symbol, with no forecast so far. -/
def turnWorld : World K :=
  ⟨t, Restart.handling stream stream.length (consume P stream), [], some (.turn symbols)⟩

theorem reachable_turnWorld : Reachable P (turnWorld P t stream) := by
  obtain ⟨t₀, es, hrun⟩ := reachable_consumed P t stream
  refine ⟨t₀, es ++ [.launch, .cycle], ?_⟩
  rw [Runs.run_append, hrun]
  rfl

/-- The symbol has had its turn. -/
def forecastedWorld : World K :=
  { turnWorld P t stream with
    inference := some (.turn symbols.tail)
    forecasts := inferSymbol P "BTCUSDT" ((turnWorld P t stream).visit (some b)) [] }

theorem reachable_forecastedWorld : Reachable P (forecastedWorld P t stream b) := by
  obtain ⟨t₀, es, hrun⟩ := reachable_turnWorld P t stream
  obtain ⟨bundles, hcalls⟩ := uninterrupted_turn (P := P) (some b)
    (show (turnWorld P t stream).inference = some (.turn ("BTCUSDT" :: symbols.tail)) from rfl)
  refine ⟨t₀, es ++ bundles.map .call, ?_⟩
  rw [Runs.run_append, hrun]
  exact hcalls

variable {P t stream b}

/-- Features that are old enough to have a label get their realized volatility in that turn. -/
theorem exists_realized {f : FeatureRow K} {v : Flt K}
    (hf : f ∈ readable ((turnWorld P t stream).visit (some b)) [] "BTCUSDT")
    (hover : f.time ≤ t - forwardWindow * minute)
    (hlabel : labelAt P (timedCloses ((floats (consume P stream).prices).filter fun r =>
      r.symbol = "BTCUSDT")) f.time = some v) :
    ∃ r ∈ (forecastedWorld P t stream b).forecasts, r.realizedVol = some v := by
  have hread : ∀ g ∈ readable ((turnWorld P t stream).visit (some b)) [] "BTCUSDT",
      g.symbol = "BTCUSDT" := fun g hg => (mem_pending.mp (pending_of_readable hg)).2.1
  have hkeys : ((floats (consume P stream).prices).map PriceRow.key).Nodup := by
    rw [keys_floats]
    exact Restart.nodup_prices P stream
  have hmem : f.key ∈ (insertForecasts (preds "BTCUSDT" b
      (readable ((turnWorld P t stream).visit (some b)) [] "BTCUSDT")) []).map
        ForecastRow.key := by
    rw [mem_keys_insertForecasts, keys_preds b hread]
    exact Or.inr (List.mem_map_of_mem hf)
  obtain ⟨r, hr, hkey⟩ := List.mem_map.mp hmem
  have hnone : r.realizedVol = none :=
    realizedVol_preds ((mem_of_mem_insertForecasts hr).resolve_left List.not_mem_nil)
  obtain ⟨x, hx, _, _, hsome⟩ := (fills_iff hkeys).mpr ⟨mem_missing.mpr
    ⟨r, hr, hkey.trans (Prod.ext (hread f hf) rfl), hnone, hover⟩, hlabel⟩
  refine ⟨x.2, ?_, hsome⟩
  show x.2 ∈ inferSymbol P "BTCUSDT" ((turnWorld P t stream).visit (some b)) []
  rw [inferSymbol_of_readable P rfl (List.ne_nil_of_mem hf)]
  exact (List.of_mem_zip hx).2

end FirstTurn

end PortfolioEngine.Pipeline
