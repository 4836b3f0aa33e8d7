import PortfolioEngine.Lib.Recent
import PortfolioEngine.Portfolio.HeldPositions
import PortfolioEngine.Portfolio.Projection

/-!
# The wealth of the strategy

`_run_rebalance` goes from row to row by way of the database. What comes of it over a run does not
mention the table: between two rebalances the wealth grows by what the weights of the first one
earn, less the fee on what the second one trades.

1. `equity_compounds`: every stored equity is the product of these growths, and every stored
   turnover is what the weights have changed by, which is at most 2.
2. `fees_only_cost`: a higher fee never leads to a higher equity.
-/

namespace PortfolioEngine.Ledger

open Tables Allocator

variable {K : Type*} [Field K] [LinearOrder K] {n : ℕ}

/-! ## The strategy without a table -/

/-- The time of the rebalance before, or a day before the first one. -/
def startOf (prev : Option (Rebalance K n)) (now : ℤ) : ℤ :=
  match prev with
  | some p => p.now
  | none => now - day

/-- The weights held since then. -/
def heldSince (prev : Option (Rebalance K n)) : Fin n → K :=
  match prev with
  | some p => p.weights
  | none => fun _ => 1 / (n : K)

section Growth

variable (symbols : Fin n → Symbol) (feeRate : K)

/-- What the held weights earn until `r`. -/
def gross (prev : Option (Rebalance K n)) (r : Rebalance K n) : K :=
  ∑ i, heldSince prev i *
    assetReturn (fetchLatestPrice r.prices symbols (startOf prev r.now) (symbols i))
      (fetchLatestPrice r.prices symbols r.now (symbols i))

/-- What `r` trades. -/
def traded (prev : Option (Rebalance K n)) (r : Rebalance K n) : K :=
  ∑ i, |r.weights i - heldSince prev i|

/-- The factor from one rebalance to the next; a loss of everything is final. -/
def growth (prev : Option (Rebalance K n)) (r : Rebalance K n) : K :=
  max 0 (1 + (gross symbols prev r - feeRate * traded prev r))

/-- The product of the growths. -/
def wealth (rs : List (Rebalance K n)) : K :=
  (List.zipWith (growth symbols feeRate) (Recent.shift none (rs.map some)) rs).prod

omit [Field K] [LinearOrder K] in
theorem getLast?_map_some {α : Type*} (l : List α) :
    (l.map some).getLast?.getD none = l.getLast? := by
  rw [List.getLast?_map]
  cases l.getLast? <;> rfl

theorem wealth_concat (rs : List (Rebalance K n)) (r : Rebalance K n) :
    wealth symbols feeRate (rs ++ [r]) =
      wealth symbols feeRate rs * growth symbols feeRate rs.getLast? r := by
  unfold wealth
  rw [List.map_append, List.map_singleton, Recent.shift_concat, getLast?_map_some,
    List.zipWith_append (by rw [Recent.length_shift, List.length_map]), List.prod_append]
  simp

end Growth

/-! ## The P&L of two weight vectors -/

section Pnl

variable {symbols : Fin n → Symbol}

omit [Field K] [LinearOrder K] in
theorem keySet_weightsDict (hsymbols : Function.Injective symbols) (w : Fin n → K) :
    (weightsDict symbols w).keySet = Finset.univ.image symbols := by
  ext s
  unfold weightsDict Dict.keySet
  rw [Dict.ofPairs_ofFn hsymbols, List.map_ofFn, List.mem_toFinset, List.mem_ofFn, Finset.mem_image]
  simp

omit [LinearOrder K] in
theorem getD_weightsDict (hsymbols : Function.Injective symbols) (w : Fin n → K) (i : Fin n) :
    (weightsDict symbols w).getD (symbols i) 0 = w i := by
  unfold weightsDict Dict.getD
  rw [Dict.lookup_ofPairs_ofFn hsymbols]
  rfl

omit [Field K] [LinearOrder K] in
theorem orDict_weightsDict (hsymbols : Function.Injective symbols) (w w' : Fin n → K) :
    orDict (some (weightsDict symbols w')) (weightsDict symbols w) = weightsDict symbols w' := by
  unfold weightsDict
  rw [Dict.ofPairs_ofFn hsymbols, Dict.ofPairs_ofFn hsymbols]
  cases n with
  | zero => rfl
  | succ n =>
    rw [List.ofFn_succ]
    rfl

/-- On weights of the configured symbols the sums of `compute_portfolio_pnl` are sums over these. -/
theorem computePortfolioPnl_weights (hsymbols : Function.Injective symbols) (w w' : Fin n → K)
    (fromPrices toPrices : Symbol → Option (PricePoint K)) (e feeRate c : K) :
    let pnl := computePortfolioPnl (weightsDict symbols w)
      (computePeriodAssetReturns symbols fromPrices toPrices) (some e)
      (some (weightsDict symbols w')) feeRate c false
    pnl.turnover = ∑ i, |w' i - w i| ∧
      pnl.equity = e * (1 +
        (∑ i, w i * assetReturn (fromPrices (symbols i)) (toPrices (symbols i)) -
          feeRate * ∑ i, |w' i - w i|)) := by
  have hreturns : ∀ i, (computePeriodAssetReturns symbols fromPrices toPrices).getD (symbols i) 0 =
      assetReturn (fromPrices (symbols i)) (toPrices (symbols i)) := fun i =>
    Dict.getD_ofPairs_ofFn symbols (fun s => assetReturn (fromPrices s) (toPrices s)) i 0
  have hkeys : (computePeriodAssetReturns symbols fromPrices toPrices).keySet =
      Finset.univ.image symbols := keySet_weightsDict hsymbols _
  have hsum : ∀ f : Symbol → K, ∑ s ∈ Finset.univ.image symbols, f s = ∑ i, f (symbols i) :=
    fun f => Finset.sum_image fun i _ j _ h => hsymbols h
  unfold computePortfolioPnl
  dsimp only
  rw [orDict_weightsDict hsymbols, keySet_weightsDict hsymbols, keySet_weightsDict hsymbols, hkeys,
    Finset.union_self, Finset.union_self, hsum, hsum]
  simp only [getD_weightsDict hsymbols, hreturns]
  exact ⟨rfl, rfl⟩

end Pnl

/-! ## The run -/

section Run

variable {symbols : Fin n → Symbol} {feeRate : K} [IsStrictOrderedRing K]

omit [IsStrictOrderedRing K] in
theorem growth_nonneg (prev : Option (Rebalance K n)) (r : Rebalance K n) :
    0 ≤ growth symbols feeRate prev r := le_max_left _ _

theorem wealth_nonneg (rs : List (Rebalance K n)) : 0 ≤ wealth symbols feeRate rs := by
  induction rs using List.reverseRecOn with
  | nil => exact zero_le_one
  | append_singleton rs r ih =>
    rw [wealth_concat]
    exact mul_nonneg ih (growth_nonneg _ _)

/-- The state after `rs`, which the next rebalance starts from. -/
def stateAfter (symbols : Fin n → Symbol) (feeRate : K) (rs : List (Rebalance K n)) (now : ℤ) :
    Previous K where
  time := startOf rs.getLast? now
  weights := weightsDict symbols (heldSince rs.getLast?)
  equity := wealth symbols feeRate rs
  cumulativePnl := wealth symbols feeRate rs - 1

variable (feeRate) in
theorem nextRow_stateAfter (hsymbols : Function.Injective symbols) (rs : List (Rebalance K n))
    (r : Rebalance K n) :
    let prev := stateAfter symbols feeRate rs r.now
    let row := nextRow symbols feeRate r.now prev r.weights
      (computePeriodAssetReturns symbols (fetchLatestPrice r.prices symbols prev.time)
        (fetchLatestPrice r.prices symbols r.now)) r.pVol r.pSharpe
    row.turnover = some (traded rs.getLast? r) ∧
      row.equity = some (wealth symbols feeRate (rs ++ [r])) ∧
      ∀ now, previous symbols now (some row.state) =
        stateAfter symbols feeRate (rs ++ [r]) now := by
  intro prev row
  obtain ⟨hturnover, hequity⟩ := computePortfolioPnl_weights hsymbols (heldSince rs.getLast?)
    r.weights (fetchLatestPrice r.prices symbols (startOf rs.getLast? r.now))
    (fetchLatestPrice r.prices symbols r.now) (wealth symbols feeRate rs) feeRate
    (wealth symbols feeRate rs - 1)
  -- the clamp at 0 commutes with the factor, as wealth is not negative
  have hnext : max 0 (wealth symbols feeRate rs *
      (1 + (gross symbols rs.getLast? r - feeRate * traded rs.getLast? r))) =
        wealth symbols feeRate (rs ++ [r]) := by
    rw [wealth_concat, growth, mul_max_of_nonneg _ _ (wealth_nonneg rs), mul_zero]
  have hrow : row.equity = some (wealth symbols feeRate (rs ++ [r])) := by
    rw [← hnext]
    exact congrArg (fun x => some (max 0 x)) hequity
  obtain ⟨e, _, _, he, _, hc⟩ : ∃ e, 0 ≤ e ∧ (wealth symbols feeRate rs = 0 → e = 0) ∧
      row.equity = some e ∧ row.periodPnl = some (e - wealth symbols feeRate rs) ∧
      row.cumulativePnl = some (e - 1) :=
    nextRow_spec symbols feeRate (show prev.equity = _ from rfl) rfl r.now r.weights _ r.pVol
      r.pSharpe rfl
  rw [hrow] at he
  rw [← Option.some.inj he] at hc
  refine ⟨congrArg some hturnover, hrow, fun now => ?_⟩
  show (⟨r.now, weightsDict symbols r.weights, row.equity.getD 1, row.cumulativePnl.getD 0⟩ :
    Previous K) = _
  rw [hrow, hc, stateAfter, List.getLast?_concat]
  rfl

theorem previous_ledger (hsymbols : Function.Injective symbols) {rs : List (Rebalance K n)}
    (h : rs.Pairwise fun a b => a.now < b.now) (now : ℤ) :
    previous symbols now (fetchLatestPortfolioState (ledger symbols feeRate rs)) =
      stateAfter symbols feeRate rs now := by
  induction rs using List.reverseRecOn generalizing now with
  | nil =>
    show (⟨now - day, _, 1, 0⟩ : Previous K) = ⟨now - day, _, 1, 1 - 1⟩
    rw [sub_self]
    rfl
  | append_singleton rs r ih =>
    obtain ⟨hrs, _, hlast⟩ := List.pairwise_append.mp h
    obtain ⟨e, hinv⟩ := ledger_inv symbols feeRate hrs
    have hlt : ∀ x ∈ ledger symbols feeRate rs, x.time < r.now :=
      hinv.time_lt symbols fun x hx => hlast x hx r (List.mem_singleton_self r)
    have hfetch : fetchLatestPortfolioState (ledger symbols feeRate (rs ++ [r])) =
        some (rebalanceRow symbols feeRate (ledger symbols feeRate rs) r).state := by
      unfold ledger
      rw [List.foldl_concat]
      exact fetchLatestPortfolioState_insert fun x hx => (hlt x hx).le
    rw [hfetch]
    unfold rebalanceRow
    rw [ih hrs]
    exact (nextRow_stateAfter feeRate hsymbols rs r).2.2 now

variable (feeRate) in
theorem row_ledger (hsymbols : Function.Injective symbols) {rs : List (Rebalance K n)}
    (h : rs.Pairwise fun a b => a.now < b.now) {i : ℕ} (hi : i < rs.length) :
    ∃ row, (ledger symbols feeRate rs)[i]? = some row ∧
      row.equity = some (wealth symbols feeRate (rs.take (i + 1))) ∧
      row.turnover = some (traded (rs.take i).getLast? rs[i]) := by
  have hrow := nextRow_stateAfter feeRate hsymbols (rs.take i) rs[i]
  have hprefix : (rs.take i).Pairwise fun a b => a.now < b.now :=
    h.sublist (List.take_sublist i rs)
  refine ⟨_, getElem?_ledger symbols feeRate h hi, ?_, ?_⟩
  · unfold rebalanceRow
    rw [previous_ledger hsymbols hprefix, List.take_succ_eq_append_getElem hi]
    exact hrow.2.1
  · unfold rebalanceRow
    rw [previous_ledger hsymbols hprefix]
    exact hrow.1

/-- A higher fee never helps. -/
theorem growth_antitone {feeRate' : K} (h : feeRate ≤ feeRate')
    (prev : Option (Rebalance K n)) (r : Rebalance K n) :
    growth symbols feeRate' prev r ≤ growth symbols feeRate prev r := by
  have htraded : 0 ≤ traded prev r := Finset.sum_nonneg fun i _ => abs_nonneg _
  unfold growth
  gcongr

theorem wealth_antitone {feeRate' : K} (h : feeRate ≤ feeRate') (rs : List (Rebalance K n)) :
    wealth symbols feeRate' rs ≤ wealth symbols feeRate rs := by
  induction rs using List.reverseRecOn with
  | nil => exact le_rfl
  | append_singleton rs r ih =>
    rw [wealth_concat, wealth_concat]
    exact mul_le_mul ih (growth_antitone h _ _) (growth_nonneg _ _) (wealth_nonneg rs)

/-- Between two portfolios at most everything is sold and bought. -/
theorem traded_le (hn : 0 < n) {prev : Option (Rebalance K n)} {r : Rebalance K n}
    (hprev : ∀ p ∈ prev, Invested p.weights) (hr : Invested r.weights) :
    traded prev r ≤ 2 * (1 + (1e-5 + 1e-8)) := by
  have hheld : Invested (heldSince (n := n) prev) := by
    cases prev with
    | some p => exact hprev p rfl
    | none =>
      have hn' : (0 : K) < n := Nat.cast_pos.mpr hn
      refine invested_of_sum_eq (fun i => (one_div_pos.mpr hn').le) ?_
      simp [heldSince, hn'.ne']
  have hsum : ∀ {w : Fin n → K}, Invested w → ∑ i, w i ≤ 1 + (1e-5 + 1e-8) := fun h => by
    linarith [(abs_le.mp h.sum_close).2]
  calc traded prev r ≤ ∑ i, (r.weights i + heldSince prev i) :=
        Finset.sum_le_sum fun i _ => by
          rw [abs_le]
          constructor <;> linarith [hr.nonneg i, hheld.nonneg i]
    _ = ∑ i, r.weights i + ∑ i, heldSince prev i := Finset.sum_add_distrib
    _ ≤ 2 * (1 + (1e-5 + 1e-8)) := by linarith [hsum hr, hsum hheld]

end Run

/-! ## The stored rows -/

variable [IsStrictOrderedRing K]

/-- **The equity compounds.** After any run of rebalances at increasing times, each stored equity is
the product of the growths so far, from the weights of one rebalance to the next one; each stored
turnover is what the weights have changed by, which is at most 2 up to the tolerance of the
weights. -/
theorem equity_compounds {symbols : Fin n → Symbol} (hsymbols : Function.Injective symbols)
    (hn : 0 < n) (feeRate : K) {rs : List (Rebalance K n)}
    (hinc : rs.Pairwise fun a b => a.now < b.now) (hinvested : ∀ r ∈ rs, Invested r.weights) {i : ℕ}
    (hi : i < rs.length) :
    ∃ row, (ledger symbols feeRate rs)[i]? = some row ∧
      row.equity = some (wealth symbols feeRate (rs.take (i + 1))) ∧
      row.turnover = some (traded (rs.take i).getLast? rs[i]) ∧
      0 ≤ traded (rs.take i).getLast? rs[i] ∧
      traded (rs.take i).getLast? rs[i] ≤ 2 * (1 + (1e-5 + 1e-8)) := by
  obtain ⟨row, hrow, hequity, hturnover⟩ := row_ledger feeRate hsymbols hinc hi
  refine ⟨row, hrow, hequity, hturnover, Finset.sum_nonneg fun i _ => abs_nonneg _,
    traded_le hn (fun p hp => hinvested p ?_) (hinvested _ (List.getElem_mem hi))⟩
  exact List.mem_of_mem_take (List.mem_of_getLast? hp)

theorem invested_rotation : ∀ r ∈ rotation, Invested r.weights := by
  intro r hr
  simp only [rotation, List.mem_cons, List.not_mem_nil, or_false] at hr
  rcases hr with rfl | rfl | rfl <;>
    exact invested_of_sum_eq (by decide +kernel) (by decide +kernel)

/-- The second rebalance sells one symbol for the other, for a fee. -/
theorem equity_compounds_rotation :
    traded (rotation.take 1).getLast? rotation[1] = 2 ∧
    ∃ row, (ledger pair (1 / 1000) rotation)[1]? = some row ∧
      row.equity = some (wealth pair (1 / 1000) (rotation.take 2)) ∧
      row.turnover = some (traded (rotation.take 1).getLast? rotation[1]) ∧
      0 ≤ traded (rotation.take 1).getLast? rotation[1] ∧
      traded (rotation.take 1).getLast? rotation[1] ≤ 2 * (1 + (1e-5 + 1e-8)) :=
  ⟨by decide +kernel, equity_compounds pair_injective Nat.two_pos _ rotation_increases
    invested_rotation (by decide)⟩

/-- The growths of the first two rebalances, less their fees. -/
example : wealth pair (1 / 1000) (rotation.take 2) = 999 / 1000 * (2 - 2 / 1000) := by
  decide +kernel

/-- **Fees only cost.** Two runs that differ in the fee alone trade the same, and at every row the
one with the higher fee has no higher equity. -/
theorem fees_only_cost {symbols : Fin n → Symbol} (hsymbols : Function.Injective symbols)
    {feeRate feeRate' : K} (h : feeRate ≤ feeRate') {rs : List (Rebalance K n)}
    (hinc : rs.Pairwise fun a b => a.now < b.now) {i : ℕ} (hi : i < rs.length) :
    ∃ row row' e e', (ledger symbols feeRate rs)[i]? = some row ∧
      (ledger symbols feeRate' rs)[i]? = some row' ∧ row.turnover = row'.turnover ∧
      row.equity = some e ∧ row'.equity = some e' ∧ e' ≤ e := by
  obtain ⟨row, hrow, hequity, hturnover⟩ := row_ledger feeRate hsymbols hinc hi
  obtain ⟨row', hrow', hequity', hturnover'⟩ := row_ledger feeRate' hsymbols hinc hi
  exact ⟨row, row', _, _, hrow, hrow', hturnover.trans hturnover'.symm, hequity, hequity',
    wealth_antitone h _⟩

/-- The run with a fee has less after the second rebalance. -/
theorem fees_only_cost_rotation :
    (ledger pair 0 rotation)[1]? ≠ (ledger pair (1 / 1000) rotation)[1]? ∧
    ∃ row row' e e', (ledger pair 0 rotation)[1]? = some row ∧
      (ledger pair (1 / 1000) rotation)[1]? = some row' ∧
      row.turnover = row'.turnover ∧ row.equity = some e ∧ row'.equity = some e' ∧ e' ≤ e :=
  ⟨by decide +kernel,
    fees_only_cost pair_injective (by norm_num) rotation_increases (by decide)⟩

end PortfolioEngine.Ledger
