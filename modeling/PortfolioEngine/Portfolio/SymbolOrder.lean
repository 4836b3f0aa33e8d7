import PortfolioEngine.Portfolio.Reordering
import PortfolioEngine.Portfolio.UnusableVols

/-!
# The order of the symbols

A rebalance under a reordering of `SYMBOLS`: the estimates are reordered, the dictionaries hold the
same entries in another order, and nothing else changes.

`symbol_order`: whatever the order of the symbols is, each symbol gets the same weight, and the same
turnover, fee and equity are stored, in any rebalance and in any run of them.
-/

namespace PortfolioEngine.Estimates

variable {K : Type*} [Field K] [LinearOrder K] {n : ℕ} (σ : Equiv.Perm (Fin n))

/-! ## The estimates -/

theorem toReturnMatrix_reorder (log : Flt K → Flt K) (df : List (Quote K))
    (symbols : Fin n → Symbol) :
    toReturnMatrix log df (symbols ∘ σ) = (toReturnMatrix log df symbols).map (· ∘ σ) := by
  have hpivot : pivot df (symbols ∘ σ) = (pivot df symbols).map (· ∘ σ) := by
    unfold pivot
    rw [List.map_map]
    rfl
  have hshift : (fun _ => .nan) :: (pivot df symbols).map (· ∘ σ) =
      ((fun _ : Fin n => Flt.nan) :: pivot df symbols).map (· ∘ σ) := rfl
  unfold toReturnMatrix
  dsimp only
  rw [hpivot, hshift, List.zipWith_map]
  have hrows : List.zipWith (fun (a b : Fin n → Flt K) i => logReturn log ((a ∘ σ) i) ((b ∘ σ) i))
      ((fun _ => .nan) :: pivot df symbols) (pivot df symbols) =
      (List.zipWith (fun (a b : Fin n → Flt K) i => logReturn log (a i) (b i))
        ((fun _ => .nan) :: pivot df symbols) (pivot df symbols)).map (· ∘ σ) := by
    rw [List.map_zipWith]
    rfl
  rw [hrows, List.filter_map]
  congr 1
  refine List.filter_congr fun row _ => decide_eq_decide.mpr ?_
  exact σ.exists_congr_right (q := fun i => (row i).isSome)

omit [Field K] [LinearOrder K] in
theorem kept_reorder (returns : List (Fin n → Option K)) (i : Fin n) :
    Kept (returns.map (· ∘ σ)) i ↔ Kept returns (σ i) := by
  unfold Kept
  simp only [List.mem_map, exists_exists_and_eq_and, Function.comp_apply]

theorem estimateMu_reorder (log : Flt K → Flt K) (df : List (Quote K)) (symbols : Fin n → Symbol) :
    estimateMu log df (symbols ∘ σ) = estimateMu log df symbols ∘ σ := by
  unfold estimateMu
  dsimp only
  rw [toReturnMatrix_reorder, List.isEmpty_map]
  split_ifs with h
  · rfl
  · funext i
    simp only [kept_reorder, List.filterMap_map, Function.comp_apply]

theorem estimateCovariance_reorder (log : Flt K → Flt K) (df : List (Quote K))
    (symbols : Fin n → Symbol) (shrinkageLambda : K) :
    estimateCovariance log df (symbols ∘ σ) shrinkageLambda =
      (estimateCovariance log df symbols shrinkageLambda).submatrix σ σ := by
  have hdiag : ∀ c : K, (c • (1 : Matrix (Fin n) (Fin n) K)).submatrix σ σ = c • 1 := fun c => by
    rw [Matrix.submatrix_smul, Pi.smul_apply, Pi.smul_apply, Matrix.submatrix_one_equiv]
  have hfilled : ∀ (returns : List (Fin n → Option K)) i,
      filled (returns.map (· ∘ σ)) i = filled returns (σ i) := fun returns i => by
    unfold filled
    rw [List.map_map]
    rfl
  unfold estimateCovariance
  dsimp only
  rw [toReturnMatrix_reorder, List.isEmpty_map, List.length_map]
  split_ifs with h
  · exact (hdiag _).symm
  · rw [Matrix.submatrix_add, Pi.add_apply, Pi.add_apply, hdiag]
    congr 1
    ext i j
    simp only [Matrix.submatrix_apply, Matrix.of_apply, kept_reorder, hfilled]

end PortfolioEngine.Estimates

namespace PortfolioEngine.RunRebalance

open Tables Ledger Estimates Allocator Outputs
open Forecasting (ForecastRow)

universe u

variable {K : Type*} {n : ℕ}

/-! ## What is found under each symbol -/

/-- A row, with its weights as what is found under each symbol. -/
def rowBySymbol (row : PortfolioRow (Flt K)) :
    (Symbol → Option (Flt K)) × PortfolioRow (Flt K) :=
  (fun s => row.weights.lookup s, { row with weights := [] })

/-- A payload, with its weights as what is found under each symbol. -/
def payloadBySymbol (p : Payload K) : (Symbol → Option (Flt K)) × Payload K :=
  (fun s => p.weights.lookup s, { p with weights := [] })

/-- The latest key, with its weights as what is found under each symbol. -/
def keyBySymbol : KeyValue K → (Symbol → Option (Flt K)) × KeyValue K
  | .dumped p => (fun s => p.weights.lookup s, .dumped { p with weights := [] })
  | .text raw => (fun _ => none, .text raw)

/-- The stores hold the same, up to the order of the weights. -/
structure SameStores (st' st : State K) : Prop where
  table : st'.table.map rowBySymbol = st.table.map rowBySymbol
  stream : st'.stream.map payloadBySymbol = st.stream.map payloadBySymbol
  key : st'.key.map keyBySymbol = st.key.map keyBySymbol

/-- The same configuration, with `SYMBOLS` in another order. -/
def Config.reorder (σ : Equiv.Perm (Fin n)) (cfg : Config K n) : Config K n :=
  { cfg with
    symbols := cfg.symbols ∘ σ
    distinct := cfg.distinct.comp σ.injective }

/-- The driver adapts either every dictionary or none. -/
def AdaptsByType (adapts : Param K → Bool) : Prop :=
  ∀ d d', adapts (.dict d) = adapts (.dict d')

/-! ## The queries -/

section Queries

variable (σ : Equiv.Perm (Fin n)) (symbols : Fin n → Symbol)

theorem exists_symbol_reorder (s : Symbol) :
    (∃ i, (symbols ∘ σ) i = s) ↔ ∃ i, symbols i = s :=
  σ.exists_congr_right (q := fun i => symbols i = s)

theorem quotesSince_reorder (prices : List (PriceRow (Option (Flt K)))) (start : ℤ) :
    quotesSince (symbols ∘ σ) prices start = quotesSince symbols prices start := by
  unfold quotesSince
  simp only [exists_symbol_reorder]

variable {ρ : Type*} {symbol : ρ → Symbol} {time : ρ → ℤ} {counts : ρ → Bool} {asOf : ℤ}
  {rows : List ρ}

theorem mem_symbols_reorder (s : Symbol) :
    s ∈ (List.ofFn (symbols ∘ σ)).dedup ↔ s ∈ (List.ofFn symbols).dedup := by
  rw [List.mem_dedup, List.mem_dedup, List.mem_ofFn, List.mem_ofFn]
  exact exists_symbol_reorder σ symbols s

theorem mem_latestPerSymbol_reorder (r : ρ) :
    r ∈ latestPerSymbol (symbols ∘ σ) symbol time counts asOf rows ↔
      r ∈ latestPerSymbol symbols symbol time counts asOf rows := by
  unfold latestPerSymbol
  simp only [List.mem_filterMap, mem_symbols_reorder]

theorem lookup_latestPerSymbol_reorder {α : Type*} (value : ρ → α) (s : Symbol) :
    ((latestPerSymbol (symbols ∘ σ) symbol time counts asOf rows).map
        fun r => (symbol r, value r)).lookup s =
      ((latestPerSymbol symbols symbol time counts asOf rows).map
        fun r => (symbol r, value r)).lookup s := by
  have hfind : ∀ s r, latest time (rows.filter fun r => symbol r = s ∧ time r ≤ asOf ∧ counts r) =
      some r → symbol r = s := fun s r hr =>
    (of_decide_eq_true (List.mem_filter.mp (mem_of_latest hr)).2).1
  unfold latestPerSymbol
  rw [Dict.lookup_filterMap hfind, Dict.lookup_filterMap hfind]
  simp only [mem_symbols_reorder]

end Queries

section Numbers

variable [Field K] [LinearOrder K] (σ : Equiv.Perm (Fin n))

/-! ## The weights -/

theorem modelVols_reorder (symbols : Fin n → Symbol) (forecasts : List (ForecastRow K)) (asOf : ℤ) :
    modelVols (symbols ∘ σ) forecasts asOf = modelVols symbols forecasts asOf ∘ σ := by
  unfold modelVols
  dsimp only
  simp only [lookup_latestPerSymbol_reorder]
  rfl

/-- The estimates and the weights in another order. -/
def Allocation.reorder (a : Allocation K n) : Allocation K n :=
  ⟨a.mu ∘ σ, a.cov.submatrix σ σ, a.weights ∘ σ⟩

theorem allocate_reorder {adapts : Param K → Bool} (hadapts : AdaptsPlain adapts)
    (log : Flt K → Flt K) (sqrt : K → K) (cfg : Config K n) (s : Snapshot K) :
    allocate adapts log sqrt (cfg.reorder σ) s =
      (allocate adapts log sqrt cfg s).map (Allocation.reorder σ) := by
  have hmu : rebalanceMu log (cfg.reorder σ) s = rebalanceMu log cfg s ∘ σ := by
    unfold rebalanceMu Config.reorder
    dsimp only
    rw [quotesSince_reorder, estimateMu_reorder]
  have hcov : rebalanceCov log (cfg.reorder σ) s = (rebalanceCov log cfg s).submatrix σ σ := by
    unfold rebalanceCov Config.reorder
    dsimp only
    rw [quotesSince_reorder, estimateCovariance_reorder]
  have hvols := modelVols_reorder σ cfg.symbols s.forecasts (truncMinute s.clock)
  rw [allocate_eq hadapts, allocate_eq hadapts, hmu, hcov]
  show (orZeroDivision (finalWeights sqrt _ _ (modelVols (cfg.symbols ∘ σ) s.forecasts
    (truncMinute s.clock)) cfg.weightCap cfg.maxOptIters.toNat cfg.optStepSize)).map _ = _
  rw [hvols, finalWeights_reorder]
  cases finalWeights sqrt (rebalanceMu log cfg s) (rebalanceCov log cfg s)
    (modelVols cfg.symbols s.forecasts (truncMinute s.clock)) cfg.weightCap
    cfg.maxOptIters.toNat cfg.optStepSize <;> rfl

/-! ## The P&L -/

omit [Field K] [LinearOrder K] in
theorem mapM_pricePoint_ok {rows : List (PriceRow (Option (Flt K)))}
    {d : Dict (PricePoint (Flt K))} (h : rows.mapM pricePoint = .ok d) :
    d = rows.map fun r => (r.symbol, ⟨r.time, r.close.getD .nan⟩) := by
  induction rows generalizing d with
  | nil =>
    cases h
    rfl
  | cons r rows ih =>
    rw [List.mapM_cons] at h
    obtain ⟨p, hp, h⟩ := exists_ok_of_bind h
    obtain ⟨d, hd, h⟩ := exists_ok_of_bind h
    cases h
    rw [List.map_cons, ih hd]
    unfold pricePoint at hp
    cases hclose : r.close with
    | none =>
      rw [hclose] at hp
      cases hp
    | some close =>
      rw [hclose] at hp
      cases hp
      rfl

omit [Field K] [LinearOrder K] in
theorem fetchLatestPrices_reorder {adapts : Param K → Bool} (hadapts : AdaptsPlain adapts)
    (symbols : Fin n → Symbol) (prices : List (PriceRow (Option (Flt K)))) (asOf : ℤ) :
    (fetchLatestPrices adapts (symbols ∘ σ) prices asOf).map (fun d s => d.lookup s) =
      (fetchLatestPrices adapts symbols prices asOf).map fun d s => d.lookup s := by
  have hrows : ∀ r, r ∈ latestPrices (symbols ∘ σ) prices asOf ↔
      r ∈ latestPrices symbols prices asOf := fun r => mem_latestPerSymbol_reorder σ symbols r
  unfold fetchLatestPrices
  rw [hadapts.execute rfl, ok_bind, hadapts.execute rfl, ok_bind]
  rcases mapM_pricePoint (latestPrices (symbols ∘ σ) prices asOf) with
    ⟨⟨d', hd'⟩, hsome⟩ | ⟨herror, r, hr, hnone⟩
  · rcases mapM_pricePoint (latestPrices symbols prices asOf) with
      ⟨⟨d, hd⟩, _⟩ | ⟨_, r, hr, hnone⟩
    · rw [hd', hd, mapM_pricePoint_ok hd', mapM_pricePoint_ok hd]
      refine congrArg Except.ok (funext fun s => ?_)
      exact lookup_latestPerSymbol_reorder σ symbols _ s
    · exact absurd hnone (hsome r ((hrows r).mpr hr))
  · rcases mapM_pricePoint (latestPrices symbols prices asOf) with ⟨_, hsome⟩ | ⟨herror', _⟩
    · exact absurd hnone (hsome r ((hrows r).mp hr))
    · rw [herror, herror']

omit [Field K] [LinearOrder K] in
theorem bind_same {ε : Type*} {α β : Type u} {γ δ : Type*} {x' x : Except ε α}
    {f' f : α → Except ε β}
    (v : α → γ) (w : β → δ) (h : x'.map v = x.map v)
    (hf : ∀ a' a, v a' = v a → (f' a').map w = (f a).map w) :
    (x' >>= f').map w = (x >>= f).map w := by
  cases x' with
  | error e' =>
    cases x with
    | error e =>
      rw [Except.error.inj h]
      rfl
    | ok a => cases h
  | ok a' =>
    cases x with
    | error e => cases h
    | ok a => exact hf a' a (Except.ok.inj h)

theorem periodAssetReturns_reorder {adapts : Param K → Bool} (hadapts : AdaptsPlain adapts)
    {symbols : Fin n → Symbol} (hsymbols : Function.Injective symbols)
    (prices : List (PriceRow (Option (Flt K)))) (fromTime toTime : ℤ) :
    (periodAssetReturns adapts (symbols ∘ σ) prices fromTime toTime).map (fun d s => d.lookup s) =
      (periodAssetReturns adapts symbols prices fromTime toTime).map fun d s => d.lookup s := by
  unfold periodAssetReturns
  refine bind_same _ _ (fetchLatestPrices_reorder σ hadapts symbols prices fromTime) ?_
  intro from' from_ hfrom
  refine bind_same _ _ (fetchLatestPrices_reorder σ hadapts symbols prices toTime) ?_
  intro to' to_ hto
  have hfrom : ∀ s, from'.lookup s = from_.lookup s := congrFun hfrom
  have hto : ∀ s, to'.lookup s = to_.lookup s := congrFun hto
  simp only [hfrom, hto]
  refine congrArg Except.ok (funext fun s => ?_)
  exact Dict.lookup_ofPairs_reorder hsymbols σ
    (fun i => periodReturn (from_.lookup (symbols i)) (to_.lookup (symbols i))) s

omit [Field K] [LinearOrder K] in
theorem orDict_congr {d' d fallback' fallback : Dict (Flt K)}
    (hd : ∀ s, d'.lookup s = d.lookup s) (hfallback : ∀ s, fallback'.lookup s = fallback.lookup s)
    (s : Symbol) :
    (orDict (some d') fallback').lookup s = (orDict (some d) fallback).lookup s := by
  have hempty : ∀ {p : Symbol × Flt K} {ps : Dict (Flt K)},
      ¬∀ s, List.lookup s (p :: ps) = none := fun {p ps} h => by
    have hp := h p.1
    rw [List.lookup_cons, beq_self_eq_true] at hp
    cases hp
  cases d' with
  | nil =>
    cases d with
    | nil => exact hfallback s
    | cons p ps => exact absurd (fun s => (hd s).symm) hempty
  | cons p' ps' =>
    cases d with
    | nil => exact absurd hd hempty
    | cons p ps => exact hd s

/-- The P&L depends on what is found under each symbol only. -/
theorem portfolioPnl_congr {prev' prev returns' returns new' new : Dict (Flt K)}
    (hprev : ∀ s, prev'.lookup s = prev.lookup s)
    (hreturns : ∀ s, returns'.lookup s = returns.lookup s)
    (hnew : ∀ s, new'.lookup s = new.lookup s) (equity : Option (Flt K)) (rate : K)
    (cumulativePnl : Flt K) (half : Bool) :
    portfolioPnl prev' returns' equity (some new') rate cumulativePnl half =
      portfolioPnl prev returns equity (some new) rate cumulativePnl half := by
  have hor := orDict_congr hnew hprev
  unfold portfolioPnl
  simp only [Dict.keySet_congr hprev, Dict.keySet_congr hreturns, Dict.keySet_congr hor,
    Dict.getD_congr hprev, Dict.getD_congr hreturns, Dict.getD_congr hor]

/-! ## The payload -/

/-- The previous states of two rebalances agree, up to the order of the weights. -/
structure SamePrevious (prev' prev : Previous (Flt K)) : Prop where
  time : prev'.time = prev.time
  equity : prev'.equity = prev.equity
  cumulativePnl : prev'.cumulativePnl = prev.cumulativePnl
  weights : ∀ s, prev'.weights.lookup s = prev.weights.lookup s

omit [LinearOrder K] in
theorem fetchedPrevious_reorder (cfg : Config K n) (s : Snapshot K)
    {table' table : List (PortfolioRow (Flt K))}
    (h : table'.map rowBySymbol = table.map rowBySymbol) :
    SamePrevious (fetchedPrevious (cfg.reorder σ) s table') (fetchedPrevious cfg s table) := by
  have hlatest : (latest PortfolioRow.time table').map rowBySymbol =
      (latest PortfolioRow.time table).map rowBySymbol := by
    have htime : ∀ r : PortfolioRow (Flt K),
        (PortfolioRow.time ∘ Prod.snd) (rowBySymbol r) = r.time := fun _ => rfl
    rw [← latest_map htime, ← latest_map htime, h]
  unfold fetchedPrevious
  cases hrow' : latest PortfolioRow.time table' with
  | none =>
    cases hrow : latest PortfolioRow.time table with
    | none =>
      refine ⟨rfl, rfl, rfl, fun s => ?_⟩
      exact Dict.lookup_ofPairs_reorder cfg.distinct σ (fun _ => Flt.fin (1 / (n : K))) s
    | some row =>
      rw [hrow', hrow] at hlatest
      cases hlatest
  | some row' =>
    cases hrow : latest PortfolioRow.time table with
    | none =>
      rw [hrow', hrow] at hlatest
      cases hlatest
    | some row =>
      rw [hrow', hrow] at hlatest
      have hview : rowBySymbol row' = rowBySymbol row := Option.some.inj hlatest
      have hrest := congrArg Prod.snd hview
      have htime := congrArg PortfolioRow.time hrest
      have hequity := congrArg PortfolioRow.equity hrest
      have hpnl := congrArg PortfolioRow.cumulativePnl hrest
      exact ⟨htime, congrArg (fun x => Option.getD x (Flt.fin 1)) hequity,
        congrArg (fun x => Option.getD x (Flt.fin 0)) hpnl, congrFun (congrArg Prod.fst hview)⟩

theorem nextPayload_reorder {symbols : Fin n → Symbol} (hsymbols : Function.Injective symbols)
    (rate : K) (now : ℤ) {prev' prev : Previous (Flt K)} (hprev : SamePrevious prev' prev)
    (weights : Fin n → K) {returns' returns : Dict (Flt K)}
    (hreturns : ∀ s, returns'.lookup s = returns.lookup s) (pVol pSharpe : K) :
    payloadBySymbol
        (nextPayload (symbols ∘ σ) rate now prev' (weights ∘ σ) returns' pVol pSharpe) =
      payloadBySymbol (nextPayload symbols rate now prev weights returns pVol pSharpe) := by
  have hnew := Dict.lookup_ofPairs_reorder hsymbols σ fun i => Flt.fin (weights i)
  have hpnl := portfolioPnl_congr hprev.weights hreturns hnew (some prev.equity) rate
    prev.cumulativePnl false
  unfold nextPayload payloadBySymbol
  dsimp only [Function.comp_apply]
  rw [hprev.equity, hprev.cumulativePnl, hpnl]
  exact congrArg (·, _) (funext hnew)

variable [IsStrictOrderedRing K]

/-- A rebalance computes the same payload, or raises the same exception. -/
theorem computePayload_reorder {adapts : Param K → Bool} (hadapts : AdaptsPlain adapts)
    (log : Flt K → Flt K) (sqrt : K → K) (cfg : Config K n) (s : Snapshot K)
    {table' table : List (PortfolioRow (Flt K))}
    (h : table'.map rowBySymbol = table.map rowBySymbol) :
    (computePayload adapts log sqrt (cfg.reorder σ) s table').map payloadBySymbol =
      (computePayload adapts log sqrt cfg s table).map payloadBySymbol := by
  have hprev := fetchedPrevious_reorder σ cfg s h
  cases ha : allocate adapts log sqrt cfg s with
  | error e =>
    have ha' := allocate_reorder σ hadapts log sqrt cfg s
    unfold computePayload
    rw [ha', ha]
    rfl
  | ok a =>
    have ha' := allocate_reorder σ hadapts log sqrt cfg s
    rw [ha] at ha'
    obtain ⟨pSharpe, hsharpe⟩ := sharpeProxy_spec sqrt a.weights a.mu a.cov
    have hsharpe' : Allocator.sharpeProxy sqrt (a.reorder σ).weights (a.reorder σ).mu
        (a.reorder σ).cov = some pSharpe := (sharpeProxy_reorder σ sqrt _ _ _).trans hsharpe
    have hvol : portfolioVolatility sqrt (a.reorder σ).weights (a.reorder σ).cov =
        portfolioVolatility sqrt a.weights a.cov := portfolioVolatility_reorder σ sqrt _ _
    rw [computePayload_eq hadapts ha' hsharpe', computePayload_eq hadapts ha hsharpe, hprev.time,
      hvol]
    refine bind_same _ _ (periodAssetReturns_reorder σ hadapts cfg.distinct s.prices _ _) ?_
    intro returns' returns hreturns
    exact congrArg Except.ok (nextPayload_reorder σ cfg.distinct cfg.turnoverFeeRate _ hprev
      a.weights (congrFun hreturns) _ _)

/-! ## The stores -/

omit [Field K] [LinearOrder K] [IsStrictOrderedRing K] in
/-- Payloads that agree up to the order of the weights leave stores that do. -/
theorem SameStores.runRebalance {st' st : State K} (h : SameStores st' st) {p' p : Payload K}
    (hp : payloadBySymbol p' = payloadBySymbol p) (fails : Option Call) :
    SameStores (Outputs.runRebalance st' p' fails).1 (Outputs.runRebalance st p fails).1 := by
  have hrow : rowBySymbol p'.row = rowBySymbol p.row := congrArg (fun q => (q.1, q.2.row)) hp
  have hkey : keyBySymbol (.dumped p') = keyBySymbol (.dumped p) :=
    congrArg (fun q => (q.1, KeyValue.dumped q.2)) hp
  have htable : (insertPortfolioState p'.row st'.table).map rowBySymbol =
      (insertPortfolioState p.row st.table).map rowBySymbol := by
    have htime : ∀ r : PortfolioRow (Flt K),
        (PortfolioRow.time ∘ Prod.snd) (rowBySymbol r) = r.time := fun _ => rfl
    unfold insertPortfolioState
    rw [← upsert_map htime, ← upsert_map htime, hrow, h.table]
  have hstream : (st'.stream ++ [p']).map payloadBySymbol =
      (st.stream ++ [p]).map payloadBySymbol := by
    rw [List.map_append, List.map_append, h.stream, List.map_singleton, List.map_singleton, hp]
  unfold Outputs.runRebalance publish
  split_ifs
  · exact h
  · exact ⟨htable, h.stream, h.key⟩
  · exact ⟨htable, hstream, h.key⟩
  · exact ⟨htable, hstream, congrArg some hkey⟩

omit [Field K] [LinearOrder K] [IsStrictOrderedRing K] in
theorem insertParams_all {adapts : Param K → Bool} (hadapts : AdaptsPlain adapts) (p : Payload K) :
    (insertParams p).all adapts = adapts (.dict p.weights) := by
  have htime : adapts (.datetime p.time) = true := hadapts _ rfl
  have hfloat : ∀ x, adapts (.float x) = true := fun x => hadapts _ rfl
  unfold insertParams
  simp only [List.all_cons, List.all_nil, htime, hfloat, Bool.true_and, Bool.and_true]

theorem runRebalance_reorder {adapts : Param K → Bool} (hadapts : AdaptsPlain adapts)
    (htype : AdaptsByType adapts) (log : Flt K → Flt K) (sqrt : K → K) (cfg : Config K n)
    (s : Snapshot K) {st' st : State K} (h : SameStores st' st) :
    SameStores (runRebalance adapts log sqrt (cfg.reorder σ) s st').1
      (runRebalance adapts log sqrt cfg s st).1 := by
  have hpayload := computePayload_reorder σ hadapts log sqrt cfg s h.table
  unfold runRebalance
  cases hp' : computePayload adapts log sqrt (cfg.reorder σ) s st'.table with
  | error e' =>
    cases hp : computePayload adapts log sqrt cfg s st.table with
    | error e => exact h
    | ok p =>
      rw [hp', hp] at hpayload
      cases hpayload
  | ok p' =>
    cases hp : computePayload adapts log sqrt cfg s st.table with
    | error e =>
      rw [hp', hp] at hpayload
      cases hpayload
    | ok p =>
      rw [hp', hp] at hpayload
      have hsame := Except.ok.inj hpayload
      dsimp only
      unfold execute
      rw [insertParams_all hadapts, insertParams_all hadapts, htype p'.weights p.weights]
      split_ifs
      · exact h.runRebalance hsame none
      · exact h.runRebalance hsame (some .insert)

theorem afterSnapshots_reorder {adapts : Param K → Bool} (hadapts : AdaptsPlain adapts)
    (htype : AdaptsByType adapts) (log : Flt K → Flt K) (sqrt : K → K) (cfg : Config K n)
    (ss : List (Snapshot K)) {st' st : State K} (h : SameStores st' st) :
    SameStores (afterSnapshots adapts log sqrt (cfg.reorder σ) ss st')
      (afterSnapshots adapts log sqrt cfg ss st) := by
  unfold afterSnapshots
  induction ss generalizing st' st with
  | nil => exact h
  | cons s ss ih => exact ih (runRebalance_reorder σ hadapts htype log sqrt cfg s h)

end Numbers

theorem SameStores.refl (st : State K) : SameStores st st := ⟨rfl, rfl, rfl⟩

/-- **The order of the symbols does not matter.** Reordering the assets reorders what
`_project_weights`, `optimize_sharpe_proxy` and `inverse_vol_weights` return. A rebalance under
reordered `SYMBOLS` computes the same payload, each symbol with the same weight, or raises the same
exception, and any run of rebalances leaves the same in the stores. -/
theorem symbol_order [Field K] [LinearOrder K] [IsStrictOrderedRing K] {adapts : Param K → Bool}
    (hadapts : AdaptsPlain adapts) (htype : AdaptsByType adapts) (log : Flt K → Flt K)
    (sqrt : K → K) (σ : Equiv.Perm (Fin n)) :
    (∀ (w : Fin n → K) cap maxIter,
        projectWeights (w ∘ σ) cap maxIter = (projectWeights w cap maxIter).map (· ∘ σ)) ∧
      (∀ (mu : Fin n → K) cov cap maxIters stepSize,
        optimizeSharpeProxy sqrt (mu ∘ σ) (cov.submatrix σ σ) cap maxIters stepSize =
          (optimizeSharpeProxy sqrt mu cov cap maxIters stepSize).map (· ∘ σ)) ∧
      (∀ (vols : Fin n → Flt K) cap,
        inverseVolWeights (vols ∘ σ) cap = (inverseVolWeights vols cap).map (· ∘ σ)) ∧
      (∀ (cfg : Config K n) s table,
        (computePayload adapts log sqrt (cfg.reorder σ) s table).map payloadBySymbol =
          (computePayload adapts log sqrt cfg s table).map payloadBySymbol) ∧
      ∀ (cfg : Config K n) ss st,
        SameStores (afterSnapshots adapts log sqrt (cfg.reorder σ) ss st)
          (afterSnapshots adapts log sqrt cfg ss st) := by
  refine ⟨fun w cap maxIter => ?_, fun mu cov cap maxIters stepSize => ?_, fun vols cap => ?_,
    fun cfg s table => ?_, fun cfg ss st => ?_⟩
  · exact projectWeights_reorder σ cap maxIter w
  · exact optimizeSharpeProxy_reorder σ sqrt mu cov cap maxIters stepSize
  · exact inverseVolWeights_reorder σ vols cap
  · exact computePayload_reorder σ hadapts log sqrt cfg s rfl
  · exact afterSnapshots_reorder σ hadapts htype log sqrt cfg ss (.refl st)

/-- The theorem for psycopg, and two symbols that change places. -/
theorem symbol_order_swap :
    let σ : Equiv.Perm (Fin 2) := Equiv.swap 0 1
    (∀ (w : Fin 2 → ℚ) cap maxIter,
        projectWeights (w ∘ σ) cap maxIter = (projectWeights w cap maxIter).map (· ∘ σ)) ∧
      (∀ (mu : Fin 2 → ℚ) cov cap maxIters stepSize,
        optimizeSharpeProxy Rat.sqrt (mu ∘ σ) (cov.submatrix σ σ) cap maxIters stepSize =
          (optimizeSharpeProxy Rat.sqrt mu cov cap maxIters stepSize).map (· ∘ σ)) ∧
      (∀ (vols : Fin 2 → Flt ℚ) cap,
        inverseVolWeights (vols ∘ σ) cap = (inverseVolWeights vols cap).map (· ∘ σ)) ∧
      (∀ (cfg : Config ℚ 2) s table,
        (computePayload psycopg id Rat.sqrt (cfg.reorder σ) s table).map payloadBySymbol =
          (computePayload psycopg id Rat.sqrt cfg s table).map payloadBySymbol) ∧
      ∀ (cfg : Config ℚ 2) ss st,
        SameStores (afterSnapshots psycopg id Rat.sqrt (cfg.reorder σ) ss st)
          (afterSnapshots psycopg id Rat.sqrt cfg ss st) :=
  symbol_order (fun _ hp => hp) (fun _ _ => rfl) id Rat.sqrt _

end PortfolioEngine.RunRebalance
