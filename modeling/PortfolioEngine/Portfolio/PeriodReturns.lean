import PortfolioEngine.Lib.Runs
import PortfolioEngine.Portfolio.Ledger

/-!
# Period returns across rebalances

The portfolio engine reads prices while feature engineering inserts them. A candle opens at its
timestamp and enters `prices` only after it closes, a minute later at the earliest; a rebalance
reads the clock, the previous state, the prices at the previous time and the prices now, stores
its row and publishes it, and can fail at each of these points.

A row of `prices` never changes, but a candle that opens at or before the clock of a rebalance can
still enter after its read. `chained_iff`: the `to` price of a rebalance is the `from` price of
the next one exactly if no such candle, newer than the one that was read, brings another close.
-/

namespace PortfolioEngine.PeriodReturns

open Tables Ledger

variable {K : Type*} [Field K] [LinearOrder K] {n : ℕ}

/-! ## The system -/

/-- A rebalance in progress or completed. `seenFrom` and `seenTo` are the `prices` tables that its
two lookups met. -/
structure Execution (K : Type*) where
  now : ℤ
  prev : Previous K
  seenFrom : List (PriceRow K)
  fromPrices : Symbol → Option (PricePoint K)
  seenTo : List (PriceRow K)
  toPrices : Symbol → Option (PricePoint K)

/-- How far `_run_rebalance` has come. -/
inductive Phase (K : Type*) where
  | idle
  | started (now : ℤ)
  | fetchedState (now : ℤ) (prev : Previous K)
  | fetchedFrom (now : ℤ) (prev : Previous K) (seenFrom : List (PriceRow K))
  | fetchedTo (ex : Execution K)
  | stored (ex : Execution K)

/-- The stores, the engine and the completed rebalances. -/
structure World (K : Type*) where
  clock : ℤ
  prices : List (PriceRow K)
  table : List (PortfolioRow K)
  engine : Phase K
  completed : List (Execution K)

inductive Event (K : Type*) (n : ℕ) where
  | insertPrice (row : PriceRow K) (t : ℤ)
  | start (t : ℤ)
  | fetchState
  | fetchFrom
  | fetchTo
  | store (weights : Fin n → K) (pVol pSharpe : K)
  | publish
  | fail

variable (symbols : Fin n → Symbol) (feeRate : K)

/-- The row of a rebalance from what it has read. -/
def Execution.row (ex : Execution K) (weights : Fin n → K) (pVol pSharpe : K) : PortfolioRow K :=
  nextRow symbols feeRate ex.now ex.prev weights
    (computePeriodAssetReturns symbols ex.fromPrices ex.toPrices) pVol pSharpe

/-- One event. -/
def step (w : World K) : Event K n → Option (World K)
  | .insertPrice row t =>
    -- Only closed candles are published, and they carry their open time.
    if w.clock ≤ t ∧ row.time % minute = 0 ∧ row.time + minute ≤ t then
      some { w with clock := t, prices := insertNew PriceRow.key row w.prices }
    else none
  | .start t =>
    match w.engine with
    | .idle =>
      if w.clock ≤ t then some { w with clock := t, engine := .started (truncMinute t) }
      else none
    | _ => none
  | .fetchState =>
    match w.engine with
    | .started now =>
      let prev := previous symbols now (fetchLatestPortfolioState w.table)
      some { w with engine := .fetchedState now prev }
    | _ => none
  | .fetchFrom =>
    match w.engine with
    | .fetchedState now prev => some { w with engine := .fetchedFrom now prev w.prices }
    | _ => none
  | .fetchTo =>
    match w.engine with
    | .fetchedFrom now prev seenFrom =>
      let ex : Execution K :=
        { now := now
          prev := prev
          seenFrom := seenFrom
          fromPrices := fetchLatestPrice seenFrom symbols prev.time
          seenTo := w.prices
          toPrices := fetchLatestPrice w.prices symbols now }
      some { w with engine := .fetchedTo ex }
    | _ => none
  | .store weights pVol pSharpe =>
    match w.engine with
    | .fetchedTo ex =>
      let row := ex.row symbols feeRate weights pVol pSharpe
      some { w with table := insertPortfolioState row w.table, engine := .stored ex }
    | _ => none
  | .publish =>
    match w.engine with
    | .stored ex => some { w with engine := .idle, completed := w.completed ++ [ex] }
    | _ => none
  | .fail => some { w with engine := .idle }

/-- Empty stores at the instant `t`. -/
def World.start (t : ℤ) : World K := ⟨t, [], [], .idle, []⟩

/-- The worlds that the events lead to. -/
def Reachable (w : World K) : Prop := ∃ t, Runs.Reachable (step symbols feeRate) (World.start t) w

/-- What one event does, guards included. -/
inductive Steps (w : World K) : Event K n → World K → Prop
  | insertPrice (row : PriceRow K) (t : ℤ) (clock : w.clock ≤ t)
      (closed : row.time % minute = 0 ∧ row.time + minute ≤ t) :
      Steps w (.insertPrice row t)
        { w with clock := t, prices := insertNew PriceRow.key row w.prices }
  | start (t : ℤ) (engine : w.engine = .idle) (clock : w.clock ≤ t) :
      Steps w (.start t) { w with clock := t, engine := .started (truncMinute t) }
  | fetchState (now : ℤ) (engine : w.engine = .started now) :
      Steps w .fetchState
        { w with
          engine := .fetchedState now
            (previous symbols now (fetchLatestPortfolioState w.table)) }
  | fetchFrom (now : ℤ) (prev : Previous K) (engine : w.engine = .fetchedState now prev) :
      Steps w .fetchFrom { w with engine := .fetchedFrom now prev w.prices }
  | fetchTo (now : ℤ) (prev : Previous K) (seenFrom : List (PriceRow K))
      (engine : w.engine = .fetchedFrom now prev seenFrom) :
      Steps w .fetchTo
        { w with
          engine := .fetchedTo
            { now := now
              prev := prev
              seenFrom := seenFrom
              fromPrices := fetchLatestPrice seenFrom symbols prev.time
              seenTo := w.prices
              toPrices := fetchLatestPrice w.prices symbols now } }
  | store (weights : Fin n → K) (pVol pSharpe : K) (ex : Execution K)
      (engine : w.engine = .fetchedTo ex) :
      Steps w (.store weights pVol pSharpe)
        { w with
          table := insertPortfolioState (ex.row symbols feeRate weights pVol pSharpe) w.table
          engine := .stored ex }
  | publish (ex : Execution K) (engine : w.engine = .stored ex) :
      Steps w .publish { w with engine := .idle, completed := w.completed ++ [ex] }
  | fail : Steps w .fail { w with engine := .idle }

theorem steps_of_step {w w' : World K} {e : Event K n}
    (h : step symbols feeRate w e = some w') : Steps symbols feeRate w e w' := by
  unfold step at h
  split at h
  · split_ifs at h with hc
    cases h
    exact .insertPrice _ _ hc.1 hc.2
  · split at h
    · split_ifs at h with hc
      cases h
      exact .start _ ‹_› hc
    · cases h
  · split at h
    · cases h
      exact .fetchState _ ‹_›
    · cases h
  · split at h
    · cases h
      exact .fetchFrom _ _ ‹_›
    · cases h
  · split at h
    · cases h
      exact .fetchTo _ _ _ ‹_›
    · cases h
  · split at h
    · cases h
      exact .store _ _ _ _ ‹_›
    · cases h
  · split at h
    · cases h
      exact .publish _ ‹_›
    · cases h
  · cases h
    exact .fail

/-! ## What a rebalance has read -/

variable {symbols}

variable (symbols) in
/-- The two lookups of an execution, in a table that has grown to `prices`. -/
structure Read (prices : List (PriceRow K)) (ex : Execution K) : Prop where
  nodupFrom : (ex.seenFrom.map PriceRow.key).Nodup
  nodupTo : (ex.seenTo.map PriceRow.key).Nodup
  seenFrom : ex.seenFrom <+: prices
  fromPrices : ex.fromPrices = fetchLatestPrice ex.seenFrom symbols ex.prev.time
  toPrices : ex.toPrices = fetchLatestPrice ex.seenTo symbols ex.now
  seenTo : ex.seenTo <+: prices

/-- `y` continues after `x`: from a state at or after the clock of `x`, with all the prices that
`x` has seen. -/
def Follows (x y : Execution K) : Prop := x.now ≤ y.prev.time ∧ x.seenTo <+: y.seenFrom

variable (symbols) in
/-- What holds of the rebalance in progress. -/
def PhaseInv (w : World K) : Phase K → Prop
  | .idle => True
  | .started _ => True
  | .fetchedState _ prev => ∀ x ∈ w.completed, x.now ≤ prev.time
  | .fetchedFrom _ prev seenFrom =>
    (∀ x ∈ w.completed, x.now ≤ prev.time ∧ x.seenTo <+: seenFrom) ∧ seenFrom <+: w.prices
  | .fetchedTo ex => (∀ x ∈ w.completed, Follows x ex) ∧ Read symbols w.prices ex
  | .stored ex => (∀ x ∈ w.completed, Follows x ex) ∧ Read symbols w.prices ex ∧
    ∃ row ∈ w.table, row.time = ex.now

variable (symbols) in
/-- The invariant of the system. -/
structure Inv (w : World K) : Prop where
  nodup : (w.prices.map PriceRow.key).Nodup
  phase : PhaseInv symbols w w.engine
  read : ∀ x ∈ w.completed, Read symbols w.prices x
  stored : ∀ x ∈ w.completed, ∃ row ∈ w.table, row.time = x.now
  follows : w.completed.Pairwise Follows

omit [Field K] [LinearOrder K] in
theorem Read.mono {prices prices' : List (PriceRow K)} {ex : Execution K}
    (h : Read symbols prices ex) (hp : prices <+: prices') : Read symbols prices' ex :=
  ⟨h.nodupFrom, h.nodupTo, h.seenFrom.trans hp, h.fromPrices, h.toPrices, h.seenTo.trans hp⟩

omit [Field K] [LinearOrder K] in
theorem Inv.insertPrice {w : World K} (h : Inv symbols w) (row : PriceRow K) (t : ℤ) :
    Inv symbols { w with clock := t, prices := insertNew PriceRow.key row w.prices } := by
  have hp := prefix_insertNew PriceRow.key row w.prices
  refine ⟨nodup_insertNew h.nodup, ?_, fun x hx => (h.read x hx).mono hp, h.stored, h.follows⟩
  have hphase := h.phase
  show PhaseInv symbols _ w.engine
  cases hw : w.engine with
  | idle => trivial
  | started now => trivial
  | fetchedState now prev => rw [hw] at hphase; exact hphase
  | fetchedFrom now prev seenFrom => rw [hw] at hphase; exact ⟨hphase.1, hphase.2.trans hp⟩
  | fetchedTo ex => rw [hw] at hphase; exact ⟨hphase.1, hphase.2.mono hp⟩
  | stored ex => rw [hw] at hphase; exact ⟨hphase.1, hphase.2.1.mono hp, hphase.2.2⟩

omit [LinearOrder K] in
theorem previous_time_ge {table : List (PortfolioRow K)} {row : PortfolioRow K} (hrow : row ∈ table)
    (now : ℤ) : row.time ≤ (previous symbols now (fetchLatestPortfolioState table)).time := by
  obtain ⟨r, hr⟩ := latest_isSome PortfolioRow.time hrow
  unfold fetchLatestPortfolioState
  rw [hr]
  exact le_of_latest hr hrow

theorem Inv.step {w w' : World K} {e : Event K n} (h : Inv symbols w)
    (hstep : step symbols feeRate w e = some w') : Inv symbols w' := by
  have hphase := h.phase
  cases steps_of_step symbols feeRate hstep with
  | insertPrice row t _ _ => exact h.insertPrice row t
  | start t _ _ => exact ⟨h.nodup, trivial, h.read, h.stored, h.follows⟩
  | fetchState now hw =>
    refine ⟨h.nodup, fun x hx => ?_, h.read, h.stored, h.follows⟩
    obtain ⟨row, hrow, ht⟩ := h.stored x hx
    rw [← ht]
    exact previous_time_ge hrow now
  | fetchFrom now prev hw =>
    rw [hw] at hphase
    exact ⟨h.nodup, ⟨fun x hx => ⟨hphase x hx, (h.read x hx).seenTo⟩, List.prefix_refl _⟩,
      h.read, h.stored, h.follows⟩
  | fetchTo now prev seenFrom hw =>
    rw [hw] at hphase
    have hnodup := h.nodup.sublist (hphase.2.sublist.map PriceRow.key)
    exact ⟨h.nodup, ⟨hphase.1, hnodup, h.nodup, hphase.2, rfl, rfl, List.prefix_refl _⟩, h.read,
      h.stored, h.follows⟩
  | store weights pVol pSharpe ex hw =>
    rw [hw] at hphase
    refine ⟨h.nodup, ⟨hphase.1, hphase.2, _, mem_upsert_self _ _ _, rfl⟩, h.read,
      fun x hx => ?_, h.follows⟩
    obtain ⟨row, hrow, ht⟩ := h.stored x hx
    obtain ⟨y, hy, hyt⟩ := exists_mem_upsert PortfolioRow.time
      (ex.row symbols feeRate weights pVol pSharpe) hrow
    exact ⟨y, hy, hyt.trans ht⟩
  | publish ex hw =>
    rw [hw] at hphase
    obtain ⟨hfollows, hread, hstored⟩ := hphase
    refine ⟨h.nodup, trivial, ?_, ?_, ?_⟩
    · intro x hx
      rcases List.mem_append.mp hx with hx | hx
      · exact h.read x hx
      · exact List.mem_singleton.mp hx ▸ hread
    · intro x hx
      rcases List.mem_append.mp hx with hx | hx
      · exact h.stored x hx
      · exact List.mem_singleton.mp hx ▸ hstored
    · refine List.pairwise_append.mpr ⟨h.follows, List.pairwise_singleton _ _, ?_⟩
      intro x hx y hy
      exact List.mem_singleton.mp hy ▸ hfollows x hx
  | fail => exact ⟨h.nodup, trivial, h.read, h.stored, h.follows⟩

variable (symbols) in
omit [Field K] [LinearOrder K] in
theorem Inv.start (t : ℤ) : Inv symbols (World.start t : World K) := by
  refine ⟨List.nodup_nil, trivial, ?_, ?_, List.Pairwise.nil⟩
  · exact fun x hx => absurd hx List.not_mem_nil
  · exact fun x hx => absurd hx List.not_mem_nil

/-! ## Consecutive rebalances -/

/-- The `to` price of `x` is the `from` price of `y`. -/
def Chained (s : Symbol) (x y : Execution K) : Prop :=
  ∀ p q, x.toPrices s = some p → y.fromPrices s = some q → p.close = q.close

/-- `r` is the newest candle of the symbol at or before `asOf`. -/
def Newest (prices : List (PriceRow K)) (s : Symbol) (asOf : ℤ) (r : PriceRow K) : Prop :=
  r ∈ prices ∧ r.symbol = s ∧ r.time ≤ asOf ∧
    ∀ q ∈ prices, q.symbol = s → q.time ≤ asOf → q.time ≤ r.time

/-- If the newest candle for the lookup of `y` entered after the lookup of `x`, or opens after its
clock, it has the close of the newest candle that `x` could see. (Any other candle has it anyway.
What a run has to do for this is `Timely`.) -/
def Undisturbed (s : Symbol) (x y : Execution K) : Prop :=
  ∀ r₀ r, Newest x.seenTo s x.now r₀ → Newest y.seenFrom s y.prev.time r →
    r ∉ x.seenTo ∨ x.now < r.time → r.close = r₀.close

omit [Field K] [LinearOrder K] in
theorem newest_of_fetchLatestPrice {prices : List (PriceRow K)} {asOf : ℤ} {s : Symbol}
    {p : PricePoint K} (h : fetchLatestPrice prices symbols asOf s = some p) :
    ∃ r, Newest prices s asOf r ∧ p = ⟨r.time, r.close⟩ := by
  unfold fetchLatestPrice at h
  split_ifs at h
  obtain ⟨r, hr, rfl⟩ := Option.map_eq_some_iff.mp h
  obtain ⟨hmem, hcond⟩ := List.mem_filter.mp (mem_of_latest hr)
  obtain ⟨hs, ht⟩ := of_decide_eq_true hcond
  refine ⟨r, ⟨hmem, hs, ht, fun q hq hqs hqt => ?_⟩, rfl⟩
  exact le_of_latest hr (List.mem_filter.mpr ⟨hq, decide_eq_true ⟨hqs, hqt⟩⟩)

omit [Field K] [LinearOrder K] in
theorem fetchLatestPrice_of_newest {prices : List (PriceRow K)}
    (hnodup : (prices.map PriceRow.key).Nodup) {asOf : ℤ} {s : Symbol} (hs : ∃ i, symbols i = s)
    {r : PriceRow K} (hr : Newest prices s asOf r) :
    fetchLatestPrice prices symbols asOf s = some ⟨r.time, r.close⟩ := by
  obtain ⟨hmem, hrs, hrt, hmax⟩ := hr
  have hr : r ∈ prices.filter fun r => r.symbol = s ∧ r.time ≤ asOf :=
    List.mem_filter.mpr ⟨hmem, decide_eq_true ⟨hrs, hrt⟩⟩
  obtain ⟨x, hx⟩ := latest_isSome PriceRow.time hr
  obtain ⟨hxmem, hcond⟩ := List.mem_filter.mp (mem_of_latest hx)
  obtain ⟨hxs, hxt⟩ := of_decide_eq_true hcond
  have hkey : x.key = r.key := by
    unfold PriceRow.key
    rw [hxs, hrs, le_antisymm (hmax x hxmem hxs hxt) (le_of_latest hx hr)]
  unfold fetchLatestPrice
  rw [if_pos hs, hx, eq_of_key_eq hnodup hxmem hmem hkey]
  rfl

omit [Field K] [LinearOrder K] in
/-- The prices chain exactly if no late candle with another close comes between. -/
theorem chained_iff {prices : List (PriceRow K)} {x y : Execution K}
    (hx : Read symbols prices x) (hy : Read symbols prices y) (hf : Follows x y) {s : Symbol}
    (hs : ∃ i, symbols i = s) : Chained s x y ↔ Undisturbed s x y := by
  constructor
  · intro h r₀ r hr₀ hr _
    have hp := fetchLatestPrice_of_newest hx.nodupTo hs hr₀
    have hq := fetchLatestPrice_of_newest hy.nodupFrom hs hr
    exact (h _ _ (hx.toPrices ▸ hp) (hy.fromPrices ▸ hq)).symm
  · intro h p q hp hq
    obtain ⟨a, ha, rfl⟩ := newest_of_fetchLatestPrice (hx.toPrices ▸ hp)
    obtain ⟨b, hb, rfl⟩ := newest_of_fetchLatestPrice (hy.fromPrices ▸ hq)
    by_cases hlate : b ∉ x.seenTo ∨ x.now < b.time
    · exact (h a b ha hb hlate).symm
    · push Not at hlate
      have hmem : a ∈ y.seenFrom := hf.2.subset ha.1
      have hab : a.time = b.time := le_antisymm
        (hb.2.2.2 a hmem ha.2.1 (ha.2.2.1.trans hf.1)) (ha.2.2.2 b hlate.1 hb.2.1 hlate.2)
      have hkey : a.key = b.key := by
        unfold PriceRow.key
        rw [ha.2.1, hb.2.1, hab]
      rw [eq_of_key_eq hy.nodupFrom hmem hb.1 hkey]

/-! ## Runs without late candles -/

/-- The rebalance that has read its `to` prices and is not completed. -/
def Phase.reader : Phase K → Option (Execution K)
  | .fetchedTo ex => some ex
  | .stored ex => some ex
  | _ => none

/-- The row is stored and not yet published. -/
def Phase.isStored : Phase K → Bool
  | .stored _ => true
  | _ => false

/-- A candle that `x` need not have seen: it opens after the clock of `x`, or `x` has seen a newer
one. -/
def Harmless (row : PriceRow K) (x : Execution K) : Prop :=
  x.now < row.time ∨ ∃ r ∈ x.seenTo, r.symbol = row.symbol ∧ r.time ≤ x.now ∧ row.time < r.time

/-- An event that lets in only harmless candles once a rebalance has read its prices, until the
next one has, and does not break a rebalance off between its store and its publish. -/
def Timely (w : World K) : Event K n → Prop
  | .insertPrice row _ => row.key ∈ w.prices.map PriceRow.key ∨
      (∀ x ∈ w.completed.getLast?, Harmless row x) ∧ ∀ x ∈ w.engine.reader, Harmless row x
  | .fail => w.engine.isStored = false
  | _ => True

instance (row : PriceRow K) (x : Execution K) : Decidable (Harmless row x) :=
  inferInstanceAs (Decidable (_ ∨ _))

instance (w : World K) : DecidablePred (Timely w : Event K n → Prop)
  | .insertPrice row _ => inferInstanceAs (Decidable (row.key ∈ w.prices.map PriceRow.key ∨
      (∀ x ∈ w.completed.getLast?, Harmless row x) ∧ ∀ x ∈ w.engine.reader, Harmless row x))
  | .fail => inferInstanceAs (Decidable (w.engine.isStored = false))
  | .start _ | .fetchState | .fetchFrom | .fetchTo | .store .. | .publish => .isTrue trivial

/-- The candles that `x` has not seen are harmless. -/
def Complete (prices : List (PriceRow K)) (x : Execution K) : Prop :=
  ∀ r ∈ prices, r ∉ x.seenTo → Harmless r x

/-- The last completed rebalance has the latest row. -/
def LastRow (w : World K) : Prop :=
  ∀ x ∈ w.completed.getLast?, ∀ row ∈ w.table, row.time ≤ x.now

/-- A clock that was read after every row of the table. -/
def Clocked (w : World K) (now : ℤ) : Prop :=
  now ≤ truncMinute w.clock ∧ ∀ row ∈ w.table, row.time ≤ now

/-- A rebalance that starts from the row of the last completed one, and has read `prices`. -/
def FromLast (w : World K) (prev : Previous K) (prices : List (PriceRow K)) : Prop :=
  ∀ x ∈ w.completed.getLast?, prev.time = x.now ∧ Complete prices x

/-- `PhaseInv` for timely runs. -/
def TimelyPhase (w : World K) : Phase K → Prop
  | .idle => LastRow w
  | .started now => LastRow w ∧ Clocked w now
  | .fetchedState now prev => LastRow w ∧ Clocked w now ∧ FromLast w prev w.prices
  | .fetchedFrom now prev seenFrom => LastRow w ∧ Clocked w now ∧ FromLast w prev seenFrom
  | .fetchedTo ex => LastRow w ∧ Clocked w ex.now ∧ FromLast w ex.prev ex.seenFrom
  | .stored ex => (∀ row ∈ w.table, row.time ≤ ex.now) ∧ FromLast w ex.prev ex.seenFrom

/-- What timely runs keep beyond `Inv`. -/
structure TimelyInv (w : World K) : Prop where
  times : ∀ row ∈ w.table, row.time ≤ truncMinute w.clock
  phase : TimelyPhase w w.engine
  complete : ∀ x ∈ w.completed.getLast?, Complete w.prices x
  reader : ∀ x ∈ w.engine.reader, Complete w.prices x
  chain : w.completed.IsChain fun x y => y.prev.time = x.now ∧ Complete y.seenFrom x

omit [Field K] [LinearOrder K] in
/-- Nobody has a row after the last one but a rebalance that is about to publish it. -/
theorem TimelyPhase.lastRow {w : World K} (h : TimelyPhase w w.engine)
    (hw : w.engine.isStored = false) : LastRow w := by
  cases he : w.engine with
  | idle => rw [he] at h; exact h
  | started now => rw [he] at h; exact h.1
  | fetchedState now prev => rw [he] at h; exact h.1
  | fetchedFrom now prev seenFrom => rw [he] at h; exact h.1
  | fetchedTo ex => rw [he] at h; exact h.1
  | stored ex => rw [he] at hw; cases hw

omit [Field K] [LinearOrder K] in
theorem Complete.insertPrice {prices : List (PriceRow K)} {x : Execution K}
    (h : Complete prices x) {row : PriceRow K}
    (hrow : row.key ∈ prices.map PriceRow.key ∨ Harmless row x) :
    Complete (insertNew PriceRow.key row prices) x := by
  intro r hr hseen
  rcases mem_insertNew.mp hr with hr | ⟨hnew, rfl⟩
  · exact h r hr hseen
  · exact hrow.resolve_left hnew

omit [Field K] [LinearOrder K] in
theorem TimelyInv.insertPrice {w : World K} (h : TimelyInv w) {row : PriceRow K} {t : ℤ}
    (ht : w.clock ≤ t) (htimely : Timely w (.insertPrice row t : Event K n)) :
    TimelyInv { w with clock := t, prices := insertNew PriceRow.key row w.prices } := by
  have hphase := h.phase
  set w' : World K := { w with clock := t, prices := insertNew PriceRow.key row w.prices }
  have hclocked : ∀ {now}, Clocked w now → Clocked w' now :=
    fun hc => ⟨hc.1.trans (truncMinute_mono ht), hc.2⟩
  have hcomplete : ∀ x ∈ w.completed.getLast?, Complete w'.prices x :=
    fun x hx => (h.complete x hx).insertPrice (htimely.imp_right fun hc => hc.1 x hx)
  refine ⟨fun r hr => (h.times r hr).trans (truncMinute_mono ht), ?_, hcomplete,
    fun x hx => ?_, h.chain⟩
  · show TimelyPhase w' w.engine
    cases hw : w.engine with
    | idle => rw [hw] at hphase; exact hphase
    | started now => rw [hw] at hphase; exact ⟨hphase.1, hclocked hphase.2⟩
    | fetchedState now prev =>
      rw [hw] at hphase
      refine ⟨hphase.1, hclocked hphase.2.1, fun x hx => ⟨(hphase.2.2 x hx).1, ?_⟩⟩
      exact hcomplete x hx
    | fetchedFrom now prev seenFrom =>
      rw [hw] at hphase; exact ⟨hphase.1, hclocked hphase.2.1, hphase.2.2⟩
    | fetchedTo ex => rw [hw] at hphase; exact ⟨hphase.1, hclocked hphase.2.1, hphase.2.2⟩
    | stored ex => rw [hw] at hphase; exact hphase
  · exact (h.reader x hx).insertPrice (htimely.imp_right fun hc => hc.2 x hx)

omit [LinearOrder K] in
theorem previous_time_eq {table : List (PortfolioRow K)} {row : PortfolioRow K}
    (hrow : row ∈ table) (hmax : ∀ r ∈ table, r.time ≤ row.time) (now : ℤ) :
    (previous symbols now (fetchLatestPortfolioState table)).time = row.time := by
  refine le_antisymm ?_ (previous_time_ge hrow now)
  obtain ⟨r, hr⟩ := latest_isSome PortfolioRow.time hrow
  unfold fetchLatestPortfolioState
  rw [hr]
  exact hmax r (mem_of_latest hr)

theorem TimelyInv.step {w w' : World K} {e : Event K n} (hinv : Inv symbols w)
    (h : TimelyInv w) (htimely : Timely w e) (hstep : step symbols feeRate w e = some w') :
    TimelyInv w' := by
  have hphase := h.phase
  have hreader := h.reader
  cases steps_of_step symbols feeRate hstep with
  | insertPrice row t ht _ => exact h.insertPrice ht htimely
  | start t hw ht =>
    rw [hw] at hphase
    have htimes := fun r hr => (h.times r hr).trans (truncMinute_mono ht)
    exact ⟨htimes, ⟨hphase, le_rfl, htimes⟩, h.complete, by rintro x ⟨⟩, h.chain⟩
  | fetchState now hw =>
    rw [hw] at hphase
    refine ⟨h.times, ⟨hphase.1, hphase.2, fun x hx => ?_⟩, h.complete, by rintro x ⟨⟩, h.chain⟩
    -- the row of the last rebalance is the newest before `now`: it is the state fetched
    obtain ⟨row, hrow, ht⟩ := hinv.stored x (List.mem_of_getLast? hx)
    refine ⟨?_, h.complete x hx⟩
    rw [← ht]
    exact previous_time_eq hrow (fun r hr => ht ▸ hphase.1 x hx r hr) now
  | fetchFrom now prev hw =>
    rw [hw] at hphase
    exact ⟨h.times, hphase, h.complete, by rintro x ⟨⟩, h.chain⟩
  | fetchTo now prev seenFrom hw =>
    rw [hw] at hphase
    refine ⟨h.times, hphase, h.complete, ?_, h.chain⟩
    rintro x ⟨⟩ r hr hseen
    exact absurd hr hseen
  | store weights pVol pSharpe ex hw =>
    rw [hw] at hphase hreader
    obtain ⟨hlast, ⟨hclock, hrows⟩, hprev⟩ := hphase
    -- the upsert replaces a row of the same slot; no row has a later time than `now`
    have hle : ∀ r ∈ insertPortfolioState (ex.row symbols feeRate weights pVol pSharpe) w.table,
        r.time ≤ ex.now := by
      intro r hr
      rcases mem_of_mem_upsert hr with rfl | hr
      · exact le_rfl
      · exact hrows r hr
    exact ⟨fun r hr => (hle r hr).trans hclock, ⟨hle, hprev⟩, h.complete, hreader, h.chain⟩
  | publish ex hw =>
    rw [hw] at hphase hreader
    refine ⟨h.times, ?_, fun x hx => ?_, by rintro x ⟨⟩, ?_⟩
    · intro x hx
      rw [List.getLast?_concat, Option.mem_some_iff] at hx
      exact hx ▸ hphase.1
    · rw [List.getLast?_concat, Option.mem_some_iff] at hx
      exact hx ▸ hreader ex rfl
    · refine List.isChain_append.mpr ⟨h.chain, List.isChain_singleton _, ?_⟩
      rintro x hx y ⟨⟩
      exact hphase.2 x hx
  | fail =>
    -- `Timely`: the failure comes before the row is stored, so no row is left unpublished
    exact ⟨h.times, hphase.lastRow htimely, h.complete, by rintro x ⟨⟩, h.chain⟩

omit [Field K] [LinearOrder K] in
/-- A rebalance whose unseen candles are harmless hands its prices on. -/
theorem Complete.undisturbed {x y : Execution K} (h : Complete y.seenFrom x)
    (hfollows : Follows x y) (hprev : y.prev.time = x.now) (s : Symbol) : Undisturbed s x y := by
  rintro r₀ r _ ⟨hr, hrs, hrt, hmax⟩ hlate
  rw [hprev] at hrt hmax
  exfalso
  rcases hlate with hseen | hnow
  · rcases h r hr hseen with hnow | ⟨r', hr', hrs', hrt', hlt⟩
    · omega
    · have hle := hmax r' (hfollows.2.subset hr') (hrs'.trans hrs) hrt'
      omega
  · omega

/-! ## The product of the returns -/

/-- `asset_returns[s]` of a rebalance. -/
def Execution.assetReturn (symbols : Fin n → Symbol) (x : Execution K) (s : Symbol) : K :=
  (computePeriodAssetReturns symbols x.fromPrices x.toPrices).getD s 0

theorem assetReturn_eq {x : Execution K} {s : Symbol} (hs : ∃ i, symbols i = s)
    {p q : PricePoint K} (hp : x.fromPrices s = some p) (hq : x.toPrices s = some q)
    (h0 : 0 < p.close) : 1 + x.assetReturn symbols s = q.close / p.close := by
  unfold Execution.assetReturn computePeriodAssetReturns
  obtain ⟨i, rfl⟩ := hs
  rw [Dict.getD_ofPairs_ofFn symbols
    (fun s => Ledger.assetReturn (x.fromPrices s) (x.toPrices s)), hp, hq]
  show 1 + (if p.close ≤ 0 then 0 else q.close / p.close - 1) = _
  rw [if_neg (not_le.mpr h0)]
  ring

/-- Both prices of `s` are there and the `from` close is positive. -/
def Priced (s : Symbol) (x : Execution K) : Prop :=
  ∃ p q, x.fromPrices s = some p ∧ x.toPrices s = some q ∧ 0 < p.close

/-- Over chained rebalances the returns multiply to the last close over the first one. -/
theorem prod_assetReturn {s : Symbol} (hs : ∃ i, symbols i = s) {xs : List (Execution K)}
    (hchain : xs.IsChain (Chained s)) (hpriced : ∀ x ∈ xs, Priced s x) {x z : Execution K}
    (hx : x ∈ xs.head?) (hz : z ∈ xs.getLast?) {p q : PricePoint K} (hp : x.fromPrices s = some p)
    (hq : z.toPrices s = some q) :
    (xs.map fun x => 1 + x.assetReturn symbols s).prod = q.close / p.close := by
  induction xs generalizing x p with
  | nil => cases hx
  | cons a xs ih =>
    obtain rfl : a = x := Option.some.inj hx
    obtain ⟨p', q', hp', hq', h0⟩ := hpriced a List.mem_cons_self
    obtain rfl : p' = p := Option.some.inj (hp'.symm.trans hp)
    rw [List.map_cons, List.prod_cons, assetReturn_eq hs hp hq' h0]
    cases xs with
    | nil =>
      obtain rfl : a = z := Option.some.inj hz
      obtain rfl : q' = q := Option.some.inj (hq'.symm.trans hq)
      rw [List.map_nil, List.prod_nil, mul_one]
    | cons b xs =>
      obtain ⟨hab, htail⟩ := List.isChain_cons_cons.mp hchain
      obtain ⟨r, _, hr, _, hr0⟩ := hpriced b (List.mem_cons_of_mem a List.mem_cons_self)
      rw [List.getLast?_cons_cons] at hz
      rw [ih htail (fun y hy => hpriced y (List.mem_cons_of_mem a hy)) rfl hz hr,
        hab q' r hq' hr, mul_comm]
      exact div_mul_div_cancel₀ hr0.ne'

/-! ## Every run -/

theorem run_inv {t : ℤ} {es : List (Event K n)} {w : World K}
    (h : Runs.run (step symbols feeRate) (World.start t) es = some w) : Inv symbols w :=
  Runs.run_invariant (fun _ _ _ hw hs => hw.step feeRate hs) (Inv.start symbols t) h

theorem run_timely {t : ℤ} {es : List (Event K n)} {w : World K}
    (h : Runs.run (step symbols feeRate) (World.start t) es = some w)
    (hes : Runs.Along (step symbols feeRate) Timely (World.start t) es) : TimelyInv w := by
  have hstart : TimelyInv (World.start t : World K) := by
    refine ⟨?_, ?_, ?_, by rintro x ⟨⟩, List.isChain_nil⟩
    · exact fun row hrow => absurd hrow List.not_mem_nil
    · rintro x ⟨⟩
    · rintro x ⟨⟩
  exact (Runs.run_invariant_along (I := fun w => Inv symbols w ∧ TimelyInv w)
    (fun _ _ _ hw ht hs => ⟨hw.1.step feeRate hs, hw.2.step feeRate hw.1 ht hs⟩)
    ⟨Inv.start symbols t, hstart⟩ hes h).2

theorem isChain_of_pairs {α : Type*} {R : α → α → Prop} {l : List α}
    (h : ∀ x y, [x, y] <:+: l → R x y) : l.IsChain R := by
  refine List.isChain_iff_forall_rel_of_append_cons_cons.mpr ?_
  rintro x y l₁ l₂ rfl
  exact h x y ⟨l₁, l₂, by simp⟩

theorem pair_of_isChain {α : Type*} {R : α → α → Prop} {l : List α} (h : l.IsChain R) {x y : α}
    (hxy : [x, y] <:+: l) : R x y := by
  have hpair := h.infix hxy
  rw [List.isChain_pair] at hpair
  exact hpair

theorem mem_of_pair {α : Type*} {x y : α} {l : List α} (h : [x, y] <:+: l) : x ∈ l ∧ y ∈ l :=
  ⟨h.subset List.mem_cons_self, h.subset (List.mem_cons_of_mem x List.mem_cons_self)⟩

variable (symbols)

/-- **Period returns.** In every run, two consecutive rebalances chain exactly if no late candle
with another close comes between them; while they chain, the returns multiply to the last close
over the first one. In a run of timely events all of them chain. -/
theorem period_returns {t : ℤ} {es : List (Event K n)} {w : World K}
    (h : Runs.run (step symbols feeRate) (World.start t) es = some w) {s : Symbol}
    (hs : ∃ i, symbols i = s) :
    (∀ x y, [x, y] <:+: w.completed → (Chained s x y ↔ Undisturbed s x y)) ∧
    (∀ xs, xs <:+: w.completed → xs.IsChain (Undisturbed s) → (∀ x ∈ xs, Priced s x) →
      ∀ x ∈ xs.head?, ∀ z ∈ xs.getLast?, ∀ p ∈ x.fromPrices s, ∀ q ∈ z.toPrices s,
        (xs.map fun x => 1 + x.assetReturn symbols s).prod = q.close / p.close) ∧
    (Runs.Along (step symbols feeRate) Timely (World.start t) es →
      w.completed.IsChain (Undisturbed s)) := by
  have hinv := run_inv feeRate h
  have hfollows : ∀ x y, [x, y] <:+: w.completed → Follows x y := fun x y hxy =>
    List.rel_of_pairwise_cons (hinv.follows.sublist hxy.sublist) List.mem_cons_self
  have hiff : ∀ x y, [x, y] <:+: w.completed → (Chained s x y ↔ Undisturbed s x y) := by
    intro x y hxy
    obtain ⟨hx, hy⟩ := mem_of_pair hxy
    exact chained_iff (hinv.read x hx) (hinv.read y hy) (hfollows x y hxy) hs
  refine ⟨hiff, fun xs hxs hundist hpriced x hx z hz p hp q hq => ?_, fun hes => ?_⟩
  · refine prod_assetReturn hs ?_ hpriced hx hz hp hq
    exact isChain_of_pairs fun x y hxy =>
      (hiff x y (hxy.trans hxs)).mpr (pair_of_isChain hundist hxy)
  · refine isChain_of_pairs fun x y hxy => ?_
    obtain ⟨hprev, hcomplete⟩ := pair_of_isChain (run_timely feeRate h hes).chain hxy
    exact hcomplete.undisturbed (hfollows x y hxy) hprev s

/-! ## Two days of one symbol -/

/-- A rebalance at `t` that meets no other event. -/
def rebalanceAt (t : ℤ) : List (Event ℚ 1) :=
  [.start t, .fetchState, .fetchFrom, .fetchTo, .store (fun _ => 1) 0 0, .publish]

/-- The candle of BTC that opens at `m`, inserted as soon as it is closed. -/
def candle (m : ℤ) (close : ℚ) : Event ℚ 1 :=
  .insertPrice ⟨m, "BTC", close, close, close, close, 1⟩ (m + minute)

/-- Two rebalances a day apart that both find every candle up to their clocks. -/
def quietDays : List (Event ℚ 1) :=
  [candle (-2 * day) 1, candle 0 2] ++ rebalanceAt minute ++ [candle (2 * minute) 3] ++
    rebalanceAt (minute + day)

theorem period_returns_quietDays :
    ∃ w, Runs.run (step (fun _ => "BTC") (0 : ℚ)) (World.start (-2 * day)) quietDays = some w ∧
      w.completed.length = 2 ∧ w.completed.IsChain (Undisturbed "BTC") := by
  have hlength : (Runs.run (step (fun _ => "BTC") (0 : ℚ)) (World.start (-2 * day))
      quietDays).map (fun w => w.completed.length) = some 2 := by decide +kernel
  obtain ⟨w, hw, hlen⟩ := Option.map_eq_some_iff.mp hlength
  exact ⟨w, hw, hlen, (period_returns _ _ hw ⟨0, rfl⟩).2.2 (by decide +kernel)⟩

/-- The same days, when the candle of the minute of the first rebalance enters after it. -/
def lateCandle : List (Event ℚ 1) :=
  [candle (-2 * day) 1, candle 0 2] ++ rebalanceAt minute ++ [candle minute 3] ++
    rebalanceAt (minute + day)

/-- The first rebalance reads the close 2 at its clock, the second one the close 3 there. -/
theorem lateCandle_breaks_the_chain :
    ¬ ∀ (t : ℤ) (es : List (Event ℚ 1)) (w : World ℚ),
      Runs.run (step (fun _ => "BTC") 0) (World.start t) es = some w →
        ∀ x y, [x, y] <:+: w.completed → Chained "BTC" x y := by
  intro h
  have hcloses : (Runs.run (step (fun _ => "BTC") (0 : ℚ)) (World.start (-2 * day))
      lateCandle).map (fun w => w.completed.map fun x =>
        ((x.fromPrices "BTC").map PricePoint.close, (x.toPrices "BTC").map PricePoint.close)) =
      some [(some 1, some 2), (some 3, some 3)] := by decide +kernel
  obtain ⟨w, hw, hmap⟩ := Option.map_eq_some_iff.mp hcloses
  obtain ⟨x, l, hxl, hx, hl⟩ := List.map_eq_cons_iff.mp hmap
  obtain ⟨y, rest, rfl, hy, hrest⟩ := List.map_eq_cons_iff.mp hl
  obtain rfl := List.map_eq_nil_iff.mp hrest
  obtain ⟨p, hp, hpc⟩ := Option.map_eq_some_iff.mp (Prod.ext_iff.mp hx).2
  obtain ⟨q, hq, hqc⟩ := Option.map_eq_some_iff.mp (Prod.ext_iff.mp hy).1
  have hpq := h _ _ w hw x y (hxl ▸ List.infix_refl _) p q hp hq
  rw [hpc, hqc] at hpq
  norm_num at hpq

end PortfolioEngine.PeriodReturns
