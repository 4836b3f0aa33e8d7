import PortfolioEngine.Features.Units
import PortfolioEngine.Pipeline.Threads

/-!
# The unit of the prices, across the services

The features, the targets and the realized volatilities come from ratios of the closes of one
symbol. `redenomination`: on candles quoted in other units, the services and the training go through
the same states, the prices apart.
-/

namespace PortfolioEngine.Pipeline

open Tables Features Forecasting

variable {K : Type*} [Field K] [LinearOrder K] [IsStrictOrderedRing K] {P : Numerics K}
  {scale : Symbol → K}

/-! ## The frames -/

section Frames

/-- A row of a frame in the unit of its symbol. -/
def redenominateFloat (scale : Symbol → K) (r : PriceRow (Flt K)) : PriceRow (Flt K) :=
  let c := (Flt.fin (scale r.symbol)).mul
  { r with
    opening := c r.opening
    high := c r.high
    low := c r.low
    close := c r.close }

omit [IsStrictOrderedRing K] in
theorem floats_redenominate (scale : Symbol → K) (prices : List (PriceRow K)) :
    floats (prices.map (redenominate scale)) = (floats prices).map (redenominateFloat scale) := by
  unfold floats
  rw [List.map_map, List.map_map]
  rfl

omit [IsStrictOrderedRing K] in
theorem fetchPricesSince_redenominate (scale : Symbol → K) (prices : List (PriceRow (Flt K)))
    (symbol : Symbol) (start : ℤ) :
    fetchPricesSince (prices.map (redenominateFloat scale)) symbol start =
      (fetchPricesSince prices symbol start).map
        (Prod.map id (Flt.fin (scale symbol)).mul) := by
  unfold fetchPricesSince
  have hfilter : (prices.map (redenominateFloat scale)).filter
      (fun r => r.symbol = symbol ∧ start ≤ r.time) =
        (prices.filter fun r => r.symbol = symbol ∧ start ≤ r.time).map
          (redenominateFloat scale) := List.filter_map
  rw [hfilter, ← Backlog.map_ordered PriceRow.time PriceRow.time (redenominateFloat scale)
    fun _ => rfl, List.map_map, List.map_map]
  refine List.map_congr_left fun r hr => ?_
  have hsymbol : r.symbol = symbol :=
    (of_decide_eq_true (List.mem_filter.mp ((Backlog.mem_ordered _).mp hr)).2).1
  rw [← hsymbol]
  rfl

omit [IsStrictOrderedRing K] in
theorem fetchTrainingData_redenominate (scale : Symbol → K) (features : List (FeatureRow K))
    (prices : List (PriceRow (Flt K))) (symbol : Symbol) (windowDays : ℕ) (now : ℤ) :
    fetchTrainingData features (prices.map (redenominateFloat scale)) symbol windowDays now =
      (fetchTrainingData features prices symbol windowDays now).map
        (Prod.map id (Flt.fin (scale symbol)).mul) := by
  unfold fetchTrainingData
  rw [Backlog.map_ordered (fun r : FeatureRow K × Flt K => r.1.time)
    (fun r : FeatureRow K × Flt K => r.1.time) (Prod.map id (Flt.fin (scale symbol)).mul)
    fun _ => rfl, List.flatMap_map, List.map_flatMap]
  congr 2
  funext p
  rw [List.map_map]
  refine List.map_congr_left fun f hf => ?_
  obtain ⟨hkey, hsymbol, _⟩ := of_decide_eq_true (List.mem_filter.mp hf).2
  have hp : p.symbol = symbol := (congrArg Prod.fst hkey).symm.trans hsymbol
  rw [← hp]
  rfl

/-- The label is computed from ratios. -/
theorem computeForwardRealizedVol_mul {c : K} (hc : 0 < c) (s : Series K) (window : ℕ) :
    computeForwardRealizedVol P (s.map (Flt.fin c).mul) window =
      computeForwardRealizedVol P s window := by
  unfold computeForwardRealizedVol squaredReturns
  rw [zipWith_div_shift hc]

theorem realizedUpdates_redenominate {c : K} (hc : 0 < c) (pricesDf : List (ℤ × Flt K))
    (missingTimes : List ℤ) :
    realizedUpdates P (pricesDf.map (Prod.map id (Flt.fin c).mul)) missingTimes =
      realizedUpdates P pricesDf missingTimes := by
  have hcloses : (pricesDf.map (Prod.map id (Flt.fin c).mul)).map Prod.snd =
      (pricesDf.map Prod.snd).map (Flt.fin c).mul := by
    rw [List.map_map, List.map_map]
    rfl
  have htimes : (pricesDf.map (Prod.map id (Flt.fin c).mul)).map Prod.fst =
      pricesDf.map Prod.fst := by
    rw [List.map_map]
    rfl
  unfold realizedUpdates
  dsimp only
  rw [List.isEmpty_map, hcloses, htimes, computeForwardRealizedVol_mul hc]

theorem trainingRows_redenominate {c : K} (hc : 0 < c) (df : List (FeatureRow K × Flt K)) :
    trainingRows P (df.map (Prod.map id (Flt.fin c).mul)) = trainingRows P df := by
  have hcloses : (df.map (Prod.map id (Flt.fin c).mul)).map Prod.snd =
      (df.map Prod.snd).map (Flt.fin c).mul := by
    rw [List.map_map, List.map_map]
    rfl
  have hfeatures : (df.map (Prod.map id (Flt.fin c).mul)).map Prod.fst = df.map Prod.fst := by
    rw [List.map_map]
    rfl
  unfold trainingRows
  rw [hcloses, hfeatures, computeForwardRealizedVol_mul hc]

theorem trainSymbol_redenominate (hscale : ∀ s, 0 < scale s) (sqrt : K → K) (arch : Garch.Arch K)
    (xgboost : Xgboost K) (features : List (FeatureRow K)) (prices : List (PriceRow (Flt K)))
    (symbol : Symbol) (now : ℤ) :
    trainSymbol P sqrt arch xgboost features (prices.map (redenominateFloat scale)) symbol now =
      trainSymbol P sqrt arch xgboost features prices symbol now := by
  unfold trainSymbol
  dsimp only
  rw [fetchTrainingData_redenominate, List.isEmpty_map, trainingRows_redenominate (hscale symbol)]

end Frames

/-! ## The services -/

/-- The same world, with its candles in other units. -/
def World.redenominate (scale : Symbol → K) (w : World K) : World K :=
  { w with market := w.market.redenominate scale }

/-- The same event, with its candle in another unit. -/
def Event.redenominate (scale : Symbol → K) : Event K → Event K
  | .market e => .market (e.redenominate scale)
  | e => e

theorem call_redenominate (hscale : ∀ s, 0 < scale s) (w : World K) (bundle : Option (Bundle K))
    (i : Inference K) : call P (w.redenominate scale) bundle i = call P w bundle i := by
  cases i with
  | pricing symbol first later rest =>
    show some (Inference.updating symbol (realizedUpdates P (fetchPricesSince
      (floats (w.market.prices.map (Features.redenominate scale))) symbol (first - minute))
        (first :: later)) rest, w.forecasts) = _
    rw [floats_redenominate, fetchPricesSince_redenominate,
      realizedUpdates_redenominate (hscale symbol)]
    rfl
  | sleeping => rfl
  | turn l => cases l <;> rfl
  | inserting symbol rows rest => cases rows <;> rfl
  | missing symbol rest => rfl
  | updating symbol updates rest => cases updates <;> rfl

theorem step_redenominate (hsort : SortsByTime P) (hscale : ∀ s, 0 < scale s) {w : World K}
    (hw : Restart.Sorted w.market) (e : Event K) :
    step P (w.redenominate scale) (e.redenominate scale) =
      (step P w e).map (World.redenominate scale) := by
  cases e with
  | tick t =>
    show (if w.clock ≤ t then _ else _) = (if w.clock ≤ t then _ else _ : Option _).map _
    split_ifs <;> rfl
  | market e =>
    simp only [step, Event.redenominate, World.redenominate,
      Restart.step_redenominate hsort hscale hw]
    rw [Option.map_map, Option.map_map]
    rfl
  | launch =>
    simp only [step, Event.redenominate, World.redenominate]
    cases w.inference <;> rfl
  | cycle =>
    simp only [step, Event.redenominate, World.redenominate]
    split <;> rfl
  | call bundle =>
    have hcall := call_redenominate (P := P) hscale w bundle
    show w.inference.bind _ = (w.inference.bind _).map _
    cases w.inference with
    | none => rfl
    | some i =>
      simp only [Option.bind_some, hcall, Option.map_map]
      rfl
  | raise =>
    simp only [step, Event.redenominate, World.redenominate, Option.map_map]
    rfl
  | crash => rfl

omit [IsStrictOrderedRing K] in
/-- The tables and the buffers are those of the candles, after every step. -/
theorem market_of_step {w w' : World K} {e : Event K}
    (hw : ∃ k j, Restart.Inv P [] [] w.market k j) (h : step P w e = some w') :
    ∃ k j, Restart.Inv P [] [] w'.market k j := by
  cases steps_of_step h with
  | market e market moves =>
    obtain ⟨k, j, hw⟩ := hw
    exact hw.step moves
  | _ => exact hw

/-! ## The threads -/

namespace Threads

/-- The same state, with its candles in other units. -/
def State.redenominate (scale : Symbol → K) (s : State K) : State K :=
  { s with world := s.world.redenominate scale }

/-- The same event, with its candle in another unit. -/
def Event.redenominate (scale : Symbol → K) : Event K → Event K
  | .market e => .market (e.redenominate scale)
  | e => e

variable {sqrt : K → K}

theorem train_redenominate (hscale : ∀ s, 0 < scale s) (w : World K) (arch : Garch.Arch K)
    (xgboost : Xgboost K) (p : Process K) :
    p.train P sqrt (w.redenominate scale) arch xgboost = p.train P sqrt w arch xgboost := by
  unfold Process.train
  have hprices : floats (w.redenominate scale).market.prices =
      (floats w.market.prices).map (redenominateFloat scale) := floats_redenominate scale _
  have hfeatures : (w.redenominate scale).market.features = w.market.features := rfl
  have hclock : (w.redenominate scale).clock = w.clock := rfl
  simp only [hprices, hfeatures, hclock, trainSymbol_redenominate hscale]

theorem step_redenominate (hsort : SortsByTime P) (hscale : ∀ s, 0 < scale s) {s : State K}
    (hs : Restart.Sorted s.world.market) (e : Event K) :
    step P sqrt (s.redenominate scale) (e.redenominate scale) =
      (step P sqrt s e).map (State.redenominate scale) := by
  obtain ⟨world, process⟩ := s
  -- what a step of the threads does to the services, it does through one of their events
  have hevent : ∀ (e : Pipeline.Event K) (process : Option (Process K)),
      ((Pipeline.step P (world.redenominate scale) (e.redenominate scale)).map
        fun world => (⟨world, process⟩ : State K)) =
          ((Pipeline.step P world e).map fun world => ⟨world, process⟩).map
            (State.redenominate scale) := by
    intro e process
    rw [Pipeline.step_redenominate hsort hscale hs, Option.map_map, Option.map_map]
    rfl
  cases e with
  | tick t => exact hevent (.tick t) process
  | market e => exact hevent (.market e) process
  | raise => exact hevent .raise process
  | crash => exact hevent .crash none
  | boot =>
    cases process with
    | some p => rfl
    | none =>
      show (if waitForFeatures symbols 100 world.market.features then _ else _) =
        (if waitForFeatures symbols 100 world.market.features then _ else _ : Option _).map _
      split_ifs <;> rfl
  | train arch xgboost =>
    cases process with
    | none => rfl
    | some p =>
      show (p.train P sqrt (world.redenominate scale) arch xgboost).map _ =
        ((p.train P sqrt world arch xgboost).map _).map _
      rw [train_redenominate hscale, Option.map_map]
      rfl
  | trained =>
    cases process with
    | none => rfl
    | some p =>
      obtain ⟨models, trainer, started, snapshot⟩ := p
      cases trainer with
      | sleeping => rfl
      | training rest newModels =>
        cases rest with
        | cons symbol rest => rfl
        | nil =>
          cases started with
          | true => rfl
          | false => exact hevent .launch _
  | retrain =>
    cases process with
    | none => rfl
    | some p =>
      obtain ⟨models, trainer, started, snapshot⟩ := p
      cases trainer <;> rfl
  | trainingFailed =>
    cases process with
    | none => rfl
    | some p =>
      obtain ⟨models, trainer, started, snapshot⟩ := p
      cases started <;> rfl
  | cycle =>
    cases process with
    | none => rfl
    | some p =>
      obtain ⟨models, trainer, started, snapshot⟩ := p
      cases models with
      | nil => rfl
      | cons bundle models => exact hevent .cycle _
  | call =>
    cases process with
    | none => rfl
    | some p =>
      obtain ⟨clock, market, forecasts, inference⟩ := world
      cases inference with
      | none => rfl
      | some i => exact hevent (.call (answering sqrt p.snapshot i)) (some p)

/-- **The unit of the prices does not matter.** A run on candles that are quoted in another unit,
one for each symbol, makes the same steps, and its state differs in the prices alone: the features,
the models, the forecasts and the realized volatilities are the same. -/
theorem redenomination (hsort : SortsByTime P) (hscale : ∀ s, 0 < scale s) (sqrt : K → K) (t : ℤ)
    (es : List (Event K)) :
    Runs.run (step P sqrt) ⟨World.start t, none⟩ (es.map (Event.redenominate scale)) =
      (Runs.run (step P sqrt) ⟨World.start t, none⟩ es).map (State.redenominate scale) := by
  have hkeeps : ∀ (s : State K) e s', (∃ k j, Restart.Inv P [] [] s.world.market k j) →
      step P sqrt s e = some s' → ∃ k j, Restart.Inv P [] [] s'.world.market k j :=
    fun s e s' hs hstep => (run_of_step hstep).invariant hs fun _ _ _ => market_of_step
  have hstart : ∃ k j, Restart.Inv P [] [] (World.start t).market k j :=
    ⟨0, 0, Restart.Inv.start P [] [] []⟩
  refine Runs.run_map (f := State.redenominate scale) (s := ⟨World.start t, none⟩) hkeeps
    (fun s e hs => ?_) hstart es
  obtain ⟨_, _, hinv⟩ := hs
  exact step_redenominate hsort hscale hinv.sorted e

/-- A run that trains on 200 minutes of candles and stores a forecast does the same in cents. -/
theorem redenomination_cents : ∃ (t : ℤ) (es : List (Event ℝ)) (s : State ℝ),
    Runs.run (step realNumerics Real.sqrt) ⟨World.start t, none⟩ es = some s ∧
    s.world.forecasts ≠ [] ∧
    Runs.run (step realNumerics Real.sqrt) ⟨World.start t, none⟩
      (es.map (Event.redenominate fun _ => 100)) = some (s.redenominate fun _ => 100) := by
  obtain ⟨s, ⟨t, es, hrun⟩, hforecasts⟩ := exists_forecast (n := 200) (by decide) (by decide)
  refine ⟨t, es, s, hrun, hforecasts, ?_⟩
  rw [redenomination sortsByTime_realNumerics (fun _ => by norm_num), hrun]
  rfl

end Threads

end PortfolioEngine.Pipeline
