import PortfolioEngine.Lib.ExactFloat
import PortfolioEngine.Portfolio.Ledger

/-!
# The outputs of a rebalance

A rebalance inserts its row, appends an event to the portfolio stream and sets the latest key, and
any of the three calls can fail and end it. The gateway serves the key, or the latest row where the
key is absent or does not parse.

`outputs_after_failure`: a failed rebalance leaves exactly what came before the failing call, and
the gateway serves the latest row exactly if the last rebalance that set a key that parses is also
the last one that stored its row.
-/

namespace PortfolioEngine.Outputs

open Tables Ledger

variable {K : Type*}

/-! ## The stores -/

/-- The payload of `_run_rebalance`. -/
structure Payload (K : Type*) where
  time : ℤ
  weights : Dict (Flt K)
  portfolioVol : Flt K
  sharpeProxy : Flt K
  equity : Flt K
  transactionCost : Flt K
  turnover : Flt K
  periodPnl : Flt K
  cumulativePnl : Flt K
  deriving DecidableEq

/-- The row that `insert_portfolio_state` stores for it. -/
def Payload.row (p : Payload K) : PortfolioRow (Flt K) where
  time := p.time
  weights := p.weights
  portfolioVol := some p.portfolioVol
  sharpeProxy := some p.sharpeProxy
  equity := some p.equity
  transactionCost := some p.transactionCost
  turnover := some p.turnover
  periodPnl := some p.periodPnl
  cumulativePnl := some p.cumulativePnl

/-- The value of the latest key: a dumped payload, or a text that is not a JSON object. -/
inductive KeyValue (K : Type*) where
  | dumped (p : Payload K)
  | text (raw : String)
  deriving DecidableEq

/-- `portfolio_state`, the entries of the portfolio stream and the latest key. -/
structure State (K : Type*) where
  table : List (PortfolioRow (Flt K))
  stream : List (Payload K)
  key : Option (KeyValue K)
  deriving DecidableEq

/-- The external calls that write. -/
inductive Call where
  | insert
  | xadd
  | set
  deriving DecidableEq

/-- `_publish`, with the call that fails, and whether it raises. -/
def publish (st : State K) (p : Payload K) (fails : Option Call) : State K × Bool :=
  if fails = some .xadd then (st, true)
  else
    let st := { st with stream := st.stream ++ [p] }
    if fails = some .set then (st, true)
    else ({ st with key := some (.dumped p) }, false)

/-- The writes of `_run_rebalance`, with the call that fails, and whether it raises. -/
def runRebalance (st : State K) (p : Payload K) (fails : Option Call) : State K × Bool :=
  if fails = some .insert then (st, true)
  else publish { st with table := insertPortfolioState p.row st.table } p fails

/-! ## The gateway -/

/-- `PortfolioPoint`. -/
structure PortfolioPoint (K : Type*) where
  time : ℤ
  weights : Dict (Flt K)
  portfolioVol : Option (Flt K)
  sharpeProxy : Option (Flt K)
  equity : Option (Flt K)
  transactionCost : Option (Flt K)
  turnover : Option (Flt K)
  periodPnl : Option (Flt K)
  cumulativePnl : Option (Flt K)
  deriving DecidableEq

/-- No NaN and no infinity, which Python writes in a form that Go does not read. -/
def Payload.isFinite (p : Payload K) : Bool :=
  ((p.weights.map Prod.snd) ++ [p.portfolioVol, p.sharpeProxy, p.equity, p.transactionCost,
    p.turnover, p.periodPnl, p.cumulativePnl]).all fun x => x.toFin?.isSome

/-- The payload in the key, if it parses. -/
def KeyValue.parse : KeyValue K → Option (Payload K)
  | .dumped p => if p.isFinite then some p else none
  | .text _ => none

/-- The point of a payload in the key. -/
def Payload.point (p : Payload K) : PortfolioPoint K where
  time := p.time
  weights := p.weights
  portfolioVol := some p.portfolioVol
  sharpeProxy := some p.sharpeProxy
  equity := some p.equity
  transactionCost := some p.transactionCost
  turnover := some p.turnover
  periodPnl := some p.periodPnl
  cumulativePnl := some p.cumulativePnl

/-- The point of a row. -/
def rowPoint (row : PortfolioRow (Flt K)) : PortfolioPoint K where
  time := row.time
  weights := row.weights
  portfolioVol := row.portfolioVol
  sharpeProxy := row.sharpeProxy
  equity := row.equity
  transactionCost := row.transactionCost
  turnover := row.turnover
  periodPnl := row.periodPnl
  cumulativePnl := row.cumulativePnl

/-- The latest row, as the gateway shows it. -/
def latestRow (st : State K) : Option (PortfolioPoint K) :=
  (latest PortfolioRow.time st.table).map rowPoint

/-- `fetchLatestPortfolio`. -/
def fetchLatestPortfolio (st : State K) : Option (PortfolioPoint K) :=
  match st.key.bind KeyValue.parse with
  | some p => some p.point
  | none => latestRow st

/-! ## Runs of attempts -/

/-- A rebalance attempt: its payload and the call that fails. -/
structure Attempt (K : Type*) where
  payload : Payload K
  fails : Option Call

/-- The stores after the attempts of the main loop, which goes on after a failure. -/
def afterAttempts (as : List (Attempt K)) : State K :=
  as.foldl (fun st a => (runRebalance st a.payload a.fails).1) ⟨[], [], none⟩

/-- The last payload whose row was stored. -/
def lastStored (as : List (Attempt K)) : Option (Payload K) :=
  ((as.filter fun a => a.fails ≠ some .insert).getLast?).map Attempt.payload

/-- The last payload whose key was set. -/
def lastCompleted (as : List (Attempt K)) : Option (Payload K) :=
  ((as.filter fun a => a.fails = none).getLast?).map Attempt.payload

theorem lastStored_concat (as : List (Attempt K)) (a : Attempt K) :
    lastStored (as ++ [a]) =
      if a.fails = some .insert then lastStored as else some a.payload := by
  unfold lastStored
  rw [List.filter_append, List.filter_singleton]
  by_cases h : a.fails = some .insert <;> simp [h]

theorem lastCompleted_concat (as : List (Attempt K)) (a : Attempt K) :
    lastCompleted (as ++ [a]) = if a.fails = none then some a.payload else lastCompleted as := by
  unfold lastCompleted
  rw [List.filter_append, List.filter_singleton]
  by_cases h : a.fails = none <;> simp [h]

theorem afterAttempts_concat (as : List (Attempt K)) (a : Attempt K) :
    afterAttempts (as ++ [a]) = (runRebalance (afterAttempts as) a.payload a.fails).1 := by
  unfold afterAttempts
  rw [List.foldl_concat]

/-- A failed call leaves what came before it. -/
theorem runRebalance_eq (st : State K) (p : Payload K) (fails : Option Call) :
    runRebalance st p fails = match fails with
      | some .insert => (st, true)
      | some .xadd => ({ st with table := insertPortfolioState p.row st.table }, true)
      | some .set =>
        ({ st with
            table := insertPortfolioState p.row st.table
            stream := st.stream ++ [p] }, true)
      | none =>
        ({ table := insertPortfolioState p.row st.table
           stream := st.stream ++ [p]
           key := some (.dumped p) }, false) := by
  unfold runRebalance publish
  cases fails with
  | none => simp
  | some call => cases call <;> simp

/-- What the attempts leave behind. -/
structure OutputsInv (as : List (Attempt K)) (st : State K) : Prop where
  rows : ∀ r ∈ st.table, ∃ a ∈ as, r.time = a.payload.time
  latest : latest PortfolioRow.time st.table = (lastStored as).map Payload.row
  key : st.key = (lastCompleted as).map KeyValue.dumped

theorem OutputsInv.concat {as : List (Attempt K)} {st : State K} (h : OutputsInv as st)
    {a : Attempt K} (ha : ∀ b ∈ as, b.payload.time ≤ a.payload.time) :
    OutputsInv (as ++ [a]) (runRebalance st a.payload a.fails).1 := by
  have hrows : ∀ r ∈ st.table, r.time ≤ a.payload.row.time := by
    intro r hr
    obtain ⟨b, hb, htime⟩ := h.rows r hr
    exact htime ▸ ha b hb
  have hold : ∀ r ∈ st.table, ∃ b ∈ as ++ [a], r.time = b.payload.time := by
    intro r hr
    obtain ⟨b, hb, htime⟩ := h.rows r hr
    exact ⟨b, List.mem_append_left _ hb, htime⟩
  have hnew : ∀ r ∈ insertPortfolioState a.payload.row st.table,
      ∃ b ∈ as ++ [a], r.time = b.payload.time := by
    intro r hr
    rcases mem_of_mem_upsert hr with rfl | hr
    · exact ⟨a, List.mem_append_right _ (List.mem_singleton_self a), rfl⟩
    · exact hold r hr
  have hstored : a.fails ≠ some .insert →
      Tables.latest PortfolioRow.time (insertPortfolioState a.payload.row st.table) =
        (lastStored (as ++ [a])).map Payload.row := by
    intro hne
    rw [lastStored_concat, if_neg hne]
    exact latest_upsert hrows
  have hkey : a.fails ≠ none → st.key = (lastCompleted (as ++ [a])).map .dumped := by
    intro hne
    rw [lastCompleted_concat, if_neg hne]
    exact h.key
  rw [runRebalance_eq]
  -- which of the three calls fails says how much of the attempt is stored
  cases hfails : a.fails with
  | none =>
    refine ⟨hnew, hstored (by simp [hfails]), ?_⟩
    rw [lastCompleted_concat, if_pos hfails]
    rfl
  | some call =>
    have hkept := hkey (by simp [hfails])
    cases call with
    | insert =>
      refine ⟨hold, ?_, hkept⟩
      rw [lastStored_concat, if_pos hfails]
      exact h.latest
    | xadd => exact ⟨hnew, hstored (by simp [hfails]), hkept⟩
    | set => exact ⟨hnew, hstored (by simp [hfails]), hkept⟩

theorem outputsInv {as : List (Attempt K)}
    (h : as.Pairwise fun a b => a.payload.time ≤ b.payload.time) :
    OutputsInv as (afterAttempts as) := by
  induction as using List.reverseRecOn with
  | nil => exact ⟨fun r hr => absurd hr List.not_mem_nil, rfl, rfl⟩
  | append_singleton as a ih =>
    obtain ⟨has, _, hlast⟩ := List.pairwise_append.mp h
    rw [afterAttempts_concat]
    exact (ih has).concat fun b hb => hlast b hb a (List.mem_singleton_self a)

/-! ## What the gateway serves -/

section Served

variable {as : List (Attempt K)} {p : Payload K}

theorem exists_of_lastStored (h : lastStored as = some p) : ∃ a ∈ as, a.payload = p := by
  obtain ⟨a, ha, hp⟩ := Option.map_eq_some_iff.mp h
  exact ⟨a, (List.mem_filter.mp (List.mem_of_getLast? ha)).1, hp⟩

theorem exists_of_lastCompleted (h : lastCompleted as = some p) : ∃ a ∈ as, a.payload = p := by
  obtain ⟨a, ha, hp⟩ := Option.map_eq_some_iff.mp h
  exact ⟨a, (List.mem_filter.mp (List.mem_of_getLast? ha)).1, hp⟩

theorem latestRow_afterAttempts (h : as.Pairwise fun a b => a.payload.time ≤ b.payload.time) :
    latestRow (afterAttempts as) = (lastStored as).map Payload.point := by
  unfold latestRow
  rw [(outputsInv h).latest, Option.map_map]
  rfl

theorem served_iff (h : as.Pairwise fun a b => a.payload.time ≤ b.payload.time) :
    fetchLatestPortfolio (afterAttempts as) = latestRow (afterAttempts as) ↔
      ∀ p, lastCompleted as = some p → p.isFinite = true →
        (lastStored as).map Payload.point = some p.point := by
  rw [latestRow_afterAttempts h]
  unfold fetchLatestPortfolio
  rw [(outputsInv h).key, latestRow_afterAttempts h]
  cases hc : lastCompleted as with
  | none =>
    refine ⟨fun _ p hp => (by cases hp), fun _ => ?_⟩
    simp
  | some p =>
    by_cases hfin : p.isFinite = true
    · have hparse : ((some p).map KeyValue.dumped).bind KeyValue.parse = some p := if_pos hfin
      rw [hparse]
      constructor
      · rintro hserved q ⟨⟩ _
        exact hserved.symm
      · intro hall
        exact (hall p rfl hfin).symm
    · have hparse : ((some p).map KeyValue.dumped).bind KeyValue.parse = none := if_neg hfin
      rw [hparse]
      refine ⟨?_, fun _ => rfl⟩
      rintro _ q ⟨⟩ hq
      exact absurd hq hfin

theorem payload_eq_of_time_eq (h : as.Pairwise fun a b => a.payload.time < b.payload.time)
    {p q : Payload K} (hp : ∃ a ∈ as, a.payload = p) (hq : ∃ a ∈ as, a.payload = q)
    (ht : p.time = q.time) : p = q := by
  obtain ⟨a, ha, rfl⟩ := hp
  obtain ⟨b, hb, rfl⟩ := hq
  have hnodup : (as.map fun a => a.payload.time).Nodup :=
    List.pairwise_map.mpr (h.imp fun hlt => hlt.ne)
  rw [List.inj_on_of_nodup_map hnodup ha hb ht]

end Served

/-- **Partial failures.** A rebalance that raises leaves exactly the effects before the call that
failed. Between attempts the gateway serves the latest row exactly if there is no key that parses,
or the last payload in the key is also the last one that was stored. -/
theorem outputs_after_failure :
    (∀ (st : State K) (p : Payload K),
      runRebalance st p (some .insert) = (st, true) ∧
      runRebalance st p (some .xadd) =
        ({ st with table := insertPortfolioState p.row st.table }, true) ∧
      runRebalance st p (some .set) =
        ({ st with
            table := insertPortfolioState p.row st.table
            stream := st.stream ++ [p] }, true) ∧
      (runRebalance st p none).2 = false) ∧
    ∀ as : List (Attempt K), (as.Pairwise fun a b => a.payload.time < b.payload.time) →
      (fetchLatestPortfolio (afterAttempts as) = latestRow (afterAttempts as) ↔
        ∀ p, lastCompleted as = some p → p.isFinite = true → lastStored as = some p) := by
  refine ⟨fun st p => ?_, fun as h => ?_⟩
  · simp only [runRebalance_eq, and_self]
  · rw [served_iff (h.imp fun hlt => hlt.le)]
    refine forall_congr' fun p => forall_congr' fun hp => forall_congr' fun _ => ?_
    constructor
    · intro hpoint
      obtain ⟨q, hq, hqp⟩ := Option.map_eq_some_iff.mp hpoint
      have htime : q.time = p.time := congrArg PortfolioPoint.time hqp
      rw [hq, payload_eq_of_time_eq h (exists_of_lastStored hq) (exists_of_lastCompleted hp) htime]
    · intro hstored
      rw [hstored]
      rfl

/-! ## A failed SET -/

/-- A payload at `t` that is all in BTC. -/
def samplePayload (t : ℤ) : Payload ℚ :=
  ⟨t, [("BTC", .fin 1)], .fin 0, .fin 0, .fin 1, .fin 0, .fin 0, .fin 0, .fin 0⟩

/-- A completed rebalance, and a day later one whose insert fails. -/
theorem outputs_after_failure_insert :
    fetchLatestPortfolio (afterAttempts
        [⟨samplePayload 0, none⟩, ⟨samplePayload day, some .insert⟩]) =
      latestRow (afterAttempts [⟨samplePayload 0, none⟩, ⟨samplePayload day, some .insert⟩]) :=
  (outputs_after_failure.2 _ (by simp [samplePayload, day, minute])).mpr fun _ hp _ => hp

/-- A completed rebalance, and a day later one whose SET fails: the row and the event of the second
one stay, and the gateway goes on serving the first. -/
theorem failed_set_is_partial :
    ¬ ((∀ (st : State ℚ) (p : Payload ℚ) (fails : Option Call),
        (runRebalance st p fails).2 = true → latestRow (runRebalance st p fails).1 = latestRow st ∧
          (runRebalance st p fails).1.stream = st.stream ∧
          (runRebalance st p fails).1.key = st.key) ∨
      ∀ as : List (Attempt ℚ), (as.Pairwise fun a b => a.payload.time < b.payload.time) →
        fetchLatestPortfolio (afterAttempts as) = latestRow (afterAttempts as)) := by
  rintro (h | h)
  · have hset := (h (afterAttempts [⟨samplePayload 0, none⟩]) (samplePayload day) (some .set) rfl).1
    revert hset
    decide +kernel
  · have hserved := h [⟨samplePayload 0, none⟩, ⟨samplePayload day, some .set⟩]
      (by simp [samplePayload, day, minute])
    revert hserved
    decide +kernel

end PortfolioEngine.Outputs
