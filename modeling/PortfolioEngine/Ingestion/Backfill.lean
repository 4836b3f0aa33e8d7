import PortfolioEngine.Data
import PortfolioEngine.Ingestion.Kline

/-!
# The backfill and the readiness waits

`backfillHistorical` of `ingestion/backfill.go` as the external calls it makes, each with its
outcome, the table `backfill_status` and the stream after them, and the check that
`wait_for_backfill` polls.

`done_means_complete_iff`: in every run of backfills, some of them cut off by the end of the
service, the status `done` means that the whole response was added to the stream exactly if no row
is lost in a backfill that comes to its end with a database and a response that parses. The loop
over the rows only logs its errors.
-/

namespace PortfolioEngine.Ingestion

open GoJson

inductive Status where
  | inProgress
  | done
  | failed
  deriving DecidableEq

/-- A call to TimescaleDB or Redis; it has its effect if `ok`. -/
inductive Call where
  | setStatus (symbol : Symbol) (status : Status) (ok : Bool)
  | xadd (e : KlineEntry) (ok : Bool)
  deriving DecidableEq

inductive RowOutcome where
  | marshalError
  | xaddError
  | added
  deriving DecidableEq

/-- How the external calls for a symbol end. The response is `none` if `retryableGet` gives up,
and its body is `none` if it is not JSON. -/
structure Outcomes where
  inProgressOk : Bool
  response : Option (Option Json)
  row : ℕ → RowOutcome
  statusOk : Bool

/-! ## The loop -/

/-- `pg` is `false` where there is no database. -/
def setBackfillStatus (pg : Bool) (symbol : Symbol) (status : Status) (ok : Bool) : List Call :=
  if pg then [.setStatus symbol status ok] else []

/-- One row of the response. -/
def publishRow (symbol : Symbol) (outcome : RowOutcome) (row : List Json) : List Call :=
  match rowKline symbol row with
  | none => []
  | some k =>
    match outcome with
    | .marshalError => []
    | .xaddError => [.xadd k.entry false]
    | .added => [.xadd k.entry true]

def publishRows (symbol : Symbol) (outcome : ℕ → RowOutcome) (rows : List (List Json)) :
    List Call :=
  rows.zipIdx.flatMap fun x => publishRow symbol (outcome x.2) x.1

/-- The body of the loop for one symbol. -/
def backfillSymbol (pg : Bool) (symbol : Symbol) (o : Outcomes) : List Call :=
  setBackfillStatus pg symbol .inProgress o.inProgressOk ++
    match o.response with
    | none => setBackfillStatus pg symbol .failed o.statusOk
    | some body =>
      match body.bind rawRows with
      | none => []
      | some rows =>
        publishRows symbol o.row rows ++ setBackfillStatus pg symbol .done o.statusOk

def backfillHistorical (pg : Bool) (o : Symbol → Outcomes) : List Call :=
  symbols.flatMap fun symbol => backfillSymbol pg symbol (o symbol)

/-! ## The stores -/

/-- The status table, and all that was ever added to the stream. -/
structure Stores where
  backfillStatus : Dict Status
  klineStream : List KlineEntry

def Stores.apply (st : Stores) : Call → Stores
  | .setStatus symbol status true =>
    { st with backfillStatus := Tables.upsert Prod.fst (symbol, status) st.backfillStatus }
  | .xadd e true => { st with klineStream := st.klineStream ++ [e] }
  | _ => st

/-- The stores after the calls. -/
def stores (calls : List Call) : Stores := calls.foldl Stores.apply ⟨[], []⟩

/-- `wait_for_backfill` returns at a poll. -/
def waitForBackfill (expected : List Symbol) (st : Stores) : Bool :=
  expected.all fun symbol => st.backfillStatus.lookup symbol = some .done

/-! ## Runs -/

/-- The backfill of one symbol by one start of the service, which makes the first `made` calls. -/
structure Attempt where
  pg : Bool
  symbol : Symbol
  outcomes : Outcomes
  made : ℕ

namespace Attempt

variable (a : Attempt)

def calls : List Call := (backfillSymbol a.pg a.symbol a.outcomes).take a.made

/-- The rows of the response. -/
def rows : List (List Json) := ((a.outcomes.response.bind id).bind rawRows).getD []

/-- The entries of the rows of at least 12 elements. -/
def history : List KlineEntry :=
  a.rows.filterMap fun row => (rowKline a.symbol row).map Kline.entry

def SetsDone : Prop := Call.setStatus a.symbol .done true ∈ a.calls

/-- The rows that are marshalled, with their positions. -/
def published : List (List Json × ℕ) :=
  a.rows.zipIdx.filter fun x => 12 ≤ x.1.length ∧ a.outcomes.row x.2 ≠ .marshalError

/-- There is a database, the response parses, and the service lives on to the last status write,
which succeeds. -/
structure Finishes : Prop where
  pg : a.pg = true
  parsed : ((a.outcomes.response.bind id).bind rawRows).isSome = true
  made : a.published.length + 2 ≤ a.made
  statusOk : a.outcomes.statusOk = true

/-- No row of at least 12 elements meets an error. -/
def NoLoss : Prop :=
  ∀ i row, a.rows[i]? = some row → 12 ≤ row.length → a.outcomes.row i = .added

end Attempt

/-- The attempts of a start of the service that makes the first `made` calls. -/
def attemptsOf (pg : Bool) (o : Symbol → Outcomes) : List Symbol → ℕ → List Attempt
  | [], _ => []
  | symbol :: rest, made =>
    ⟨pg, symbol, o symbol, made⟩ ::
      attemptsOf pg o rest (made - (backfillSymbol pg symbol (o symbol)).length)

/-- They make the calls of `backfillHistorical`, up to the end of the service. -/
theorem flatMap_calls_attemptsOf (pg : Bool) (o : Symbol → Outcomes) (made : ℕ) :
    (attemptsOf pg o symbols made).flatMap Attempt.calls =
      (backfillHistorical pg o).take made := by
  unfold backfillHistorical
  induction symbols generalizing made with
  | nil => rw [List.flatMap_nil, List.take_nil]; rfl
  | cons symbol rest ih =>
    rw [attemptsOf, List.flatMap_cons, List.flatMap_cons, ih, List.take_append]
    rfl

/-- The entries that the calls add. -/
def addedEntries (calls : List Call) : List KlineEntry :=
  calls.filterMap fun
    | .xadd e true => some e
    | _ => none

/-- The stores after the attempts. -/
def storesAfter (attempts : List Attempt) : Stores := stores (attempts.flatMap Attempt.calls)

/-- A backfill that sets `done` has added its whole response, and where a readiness wait returns,
each of its symbols was set to `done` and each backfill that did so has its response in the
stream. -/
def DoneMeansComplete (attempts : List Attempt) : Prop :=
  (∀ a ∈ attempts, a.SetsDone → addedEntries a.calls = a.history) ∧
  ∀ expected, waitForBackfill expected (storesAfter attempts) = true → ∀ symbol ∈ expected,
    (∃ a ∈ attempts, a.symbol = symbol ∧ a.SetsDone) ∧
    ∀ a ∈ attempts, a.symbol = symbol → a.SetsDone →
      ∀ e ∈ a.history, e ∈ (storesAfter attempts).klineStream

/-! ## What the calls add -/

theorem addedEntries_append (cs ds : List Call) :
    addedEntries (cs ++ ds) = addedEntries cs ++ addedEntries ds := List.filterMap_append

theorem addedEntries_setBackfillStatus (pg : Bool) (symbol : Symbol) (status : Status) (ok : Bool) :
    addedEntries (setBackfillStatus pg symbol status ok) = [] := by
  unfold setBackfillStatus
  split_ifs <;> rfl

theorem addedEntries_publishRow (symbol : Symbol) (outcome : RowOutcome) (row : List Json) :
    addedEntries (publishRow symbol outcome row) =
      (if outcome = .added then (rowKline symbol row).map Kline.entry else none).toList := by
  unfold publishRow
  cases rowKline symbol row <;> cases outcome <;> rfl

theorem addedEntries_publishRows (symbol : Symbol) (outcome : ℕ → RowOutcome)
    (rows : List (List Json)) :
    addedEntries (publishRows symbol outcome rows) = rows.zipIdx.filterMap fun x =>
      if outcome x.2 = .added then (rowKline symbol x.1).map Kline.entry else none := by
  unfold publishRows
  induction rows.zipIdx with
  | nil => rfl
  | cons x xs ih =>
    rw [List.flatMap_cons, addedEntries_append, ih, addedEntries_publishRow, List.filterMap_cons]
    cases (if outcome x.2 = .added then (rowKline symbol x.1).map Kline.entry else none) <;> rfl

theorem length_filterMap_zipIdx_le {α β : Type*} {f : α → Option β} {g : ℕ → Prop}
    [DecidablePred g] (rows : List α) (n : ℕ) :
    ((rows.zipIdx n).filterMap fun x => if g x.2 then f x.1 else none).length ≤
      (rows.filterMap f).length := by
  induction rows generalizing n with
  | nil => exact le_rfl
  | cons row rows ih =>
    have hle := ih (n + 1)
    rw [List.zipIdx_cons, List.filterMap_cons, List.filterMap_cons]
    cases f row with
    | none => simpa using hle
    | some b =>
      by_cases hg : g n
      · simpa [hg] using hle
      · simp only [hg, if_false, List.length_cons]
        omega

/-- Leaving out values by position leaves out none exactly if no position with a value is left
out. -/
theorem filterMap_zipIdx_eq_iff {α β : Type*} {f : α → Option β} {g : ℕ → Prop}
    [DecidablePred g] (rows : List α) (n : ℕ) :
    ((rows.zipIdx n).filterMap fun x => if g x.2 then f x.1 else none) = rows.filterMap f ↔
      ∀ i row, rows[i]? = some row → (f row).isSome = true → g (n + i) := by
  induction rows generalizing n with
  | nil => simp
  | cons row rows ih =>
    have hsplit : (∀ i r, (row :: rows)[i]? = some r → (f r).isSome = true → g (n + i)) ↔
        ((f row).isSome = true → g n) ∧
          ∀ i r, rows[i]? = some r → (f r).isSome = true → g (n + 1 + i) := by
      constructor
      · intro h
        refine ⟨h 0 row rfl, fun i r hr hf => ?_⟩
        have hg := h (i + 1) r hr hf
        rwa [show n + (i + 1) = n + 1 + i by omega] at hg
      · rintro ⟨hhead, htail⟩ i r hr hf
        cases i with
        | zero =>
          obtain rfl := Option.some.inj hr
          exact hhead hf
        | succ i =>
          rw [show n + (i + 1) = n + 1 + i by omega]
          exact htail i r hr hf
    rw [hsplit, ← ih (n + 1), List.zipIdx_cons, List.filterMap_cons, List.filterMap_cons]
    cases hf : f row with
    | none => simp
    | some b =>
      by_cases hg : g n
      · simp [hg]
      · have hle := length_filterMap_zipIdx_le (f := f) (g := g) rows (n + 1)
        simp only [hg, if_false, Option.isSome_some, true_imp_iff, false_and, iff_false]
        intro heq
        rw [heq, List.length_cons] at hle
        omega

theorem addedEntries_publishRows_eq_iff (a : Attempt) :
    addedEntries (publishRows a.symbol a.outcomes.row a.rows) = a.history ↔ a.NoLoss := by
  rw [addedEntries_publishRows]
  unfold Attempt.history Attempt.NoLoss
  refine (filterMap_zipIdx_eq_iff (f := fun row => (rowKline a.symbol row).map Kline.entry)
    (g := fun i => a.outcomes.row i = .added) a.rows 0).trans ?_
  simp only [Option.isSome_map, rowKline_isSome, zero_add]

/-! ## What `done` means -/

theorem take_eq_self_of_mem {α : Type*} {xs : List α} {x : α} {n : ℕ} (hx : x ∉ xs)
    (h : x ∈ (xs ++ [x]).take n) : (xs ++ [x]).take n = xs ++ [x] := by
  refine List.take_of_length_le ?_
  by_contra hn
  rw [List.length_append, List.length_singleton] at hn
  rw [List.take_append_of_le_length (by omega)] at h
  exact hx (List.mem_of_mem_take h)

theorem setStatus_not_mem_publishRows (s symbol : Symbol) (status : Status) (ok : Bool)
    (outcome : ℕ → RowOutcome) (rows : List (List Json)) :
    Call.setStatus s status ok ∉ publishRows symbol outcome rows := by
  unfold publishRows
  rw [List.mem_flatMap]
  rintro ⟨x, -, hx⟩
  unfold publishRow at hx
  cases hrow : rowKline symbol x.1 <;> cases ho : outcome x.2 <;> simp [hrow, ho] at hx

theorem mem_setBackfillStatus {c : Call} {symbol : Symbol} {pg : Bool} {status : Status}
    {ok : Bool} : c ∈ setBackfillStatus pg symbol status ok ↔
      pg = true ∧ c = .setStatus symbol status ok := by
  unfold setBackfillStatus
  split_ifs with hpg <;> simp [hpg]

theorem symbol_of_mem_calls {a : Attempt} {s : Symbol} {status : Status} {ok : Bool}
    (h : Call.setStatus s status ok ∈ a.calls) : s = a.symbol := by
  have hset : ∀ status' ok', Call.setStatus s status ok ∈
      setBackfillStatus a.pg a.symbol status' ok' → s = a.symbol := by
    intro status' ok' hmem
    cases (mem_setBackfillStatus.mp hmem).2
    rfl
  have hblock := List.mem_of_mem_take h
  unfold backfillSymbol at hblock
  rcases List.mem_append.mp hblock with hmem | hmem
  · exact hset _ _ hmem
  · split at hmem
    · exact hset _ _ hmem
    · split at hmem
      · cases hmem
      · rcases List.mem_append.mp hmem with hmem | hmem
        · exact absurd hmem (setStatus_not_mem_publishRows _ _ _ _ _ _)
        · exact hset _ _ hmem

theorem done_not_mem_loop (pg : Bool) (symbol : Symbol) (o : Outcomes) (rows : List (List Json)) :
    Call.setStatus symbol .done true ∉ setBackfillStatus pg symbol .inProgress o.inProgressOk ++
      publishRows symbol o.row rows := by
  rw [List.mem_append]
  rintro (hmem | hmem)
  · cases (mem_setBackfillStatus.mp hmem).2
  · exact setStatus_not_mem_publishRows _ _ _ _ _ _ hmem

/-- `done` is set after the loop over the rows of a response that parses. -/
theorem backfillSymbol_of_done {pg : Bool} {symbol : Symbol} {o : Outcomes}
    (h : Call.setStatus symbol .done true ∈ backfillSymbol pg symbol o) :
    pg = true ∧ o.statusOk = true ∧ ∃ rows, (o.response.bind id).bind rawRows = some rows ∧
      backfillSymbol pg symbol o =
        (setBackfillStatus pg symbol .inProgress o.inProgressOk ++
          publishRows symbol o.row rows) ++ [.setStatus symbol .done true] := by
  have hstart : Call.setStatus symbol .done true ∉
      setBackfillStatus pg symbol .inProgress o.inProgressOk := fun hmem =>
    done_not_mem_loop pg symbol o [] (List.mem_append_left _ hmem)
  unfold backfillSymbol at h ⊢
  cases hresponse : o.response with
  | none =>
    simp only [hresponse] at h
    rcases List.mem_append.mp h with hmem | hmem
    · exact absurd hmem hstart
    · cases (mem_setBackfillStatus.mp hmem).2
  | some body =>
    cases hrows : body.bind rawRows with
    | none =>
      simp only [hresponse, hrows, List.append_nil] at h
      exact absurd h hstart
    | some rows =>
      simp only [hresponse, hrows, ← List.append_assoc] at h ⊢
      obtain ⟨hpg, hcall⟩ := mem_setBackfillStatus.mp
        ((List.mem_append.mp h).resolve_left (done_not_mem_loop pg symbol o rows))
      refine ⟨hpg, (Call.setStatus.inj hcall).2.2.symm, rows, hrows, ?_⟩
      have hlast : setBackfillStatus pg symbol .done o.statusOk =
          [.setStatus symbol .done true] := by
        unfold setBackfillStatus
        rw [if_pos hpg, ← hcall]
      rw [hlast]

/-- A backfill that sets `done` has made all its calls. -/
theorem addedEntries_of_setsDone {a : Attempt} (h : a.SetsDone) :
    addedEntries a.calls = addedEntries (publishRows a.symbol a.outcomes.row a.rows) := by
  unfold Attempt.SetsDone Attempt.calls at h
  obtain ⟨-, -, rows, hrows, hcalls⟩ := backfillSymbol_of_done (List.mem_of_mem_take h)
  unfold Attempt.calls Attempt.rows
  rw [hcalls] at h ⊢
  rw [take_eq_self_of_mem (done_not_mem_loop _ _ _ _) h, hrows, addedEntries_append,
    addedEntries_append, addedEntries_setBackfillStatus]
  simp [addedEntries]

/-! ## Which attempts set `done` -/

theorem length_publishRow (symbol : Symbol) (outcome : RowOutcome) (row : List Json) :
    (publishRow symbol outcome row).length =
      if 12 ≤ row.length ∧ outcome ≠ .marshalError then 1 else 0 := by
  unfold publishRow rowKline
  by_cases hrow : 12 ≤ row.length <;> cases outcome <;> simp [hrow]

theorem length_publishRows (a : Attempt) :
    (publishRows a.symbol a.outcomes.row a.rows).length = a.published.length := by
  unfold publishRows Attempt.published
  induction a.rows.zipIdx with
  | nil => rfl
  | cons x xs ih =>
    rw [List.flatMap_cons, List.length_append, length_publishRow, ih, List.filter_cons]
    by_cases hx : 12 ≤ x.1.length ∧ a.outcomes.row x.2 ≠ .marshalError
    · rw [if_pos hx, if_pos (decide_eq_true hx), List.length_cons, Nat.add_comm]
    · rw [if_neg hx, if_neg (mt of_decide_eq_true hx), Nat.zero_add]

theorem backfillSymbol_of_rows {a : Attempt} {rows : List (List Json)} (hpg : a.pg = true)
    (hrows : (a.outcomes.response.bind id).bind rawRows = some rows) :
    backfillSymbol a.pg a.symbol a.outcomes =
      .setStatus a.symbol .inProgress a.outcomes.inProgressOk ::
        (publishRows a.symbol a.outcomes.row a.rows ++
          [.setStatus a.symbol .done a.outcomes.statusOk]) := by
  have ha : a.rows = rows := by rw [Attempt.rows, hrows, Option.getD_some]
  unfold backfillSymbol setBackfillStatus
  rw [if_pos hpg, if_pos hpg, if_pos hpg, ha]
  cases hresponse : a.outcomes.response with
  | none => simp [hresponse] at hrows
  | some body =>
    have hbody : body.bind rawRows = some rows := by simpa [hresponse] using hrows
    simp only [hbody]
    rfl

theorem setsDone_iff (a : Attempt) : a.SetsDone ↔ a.Finishes := by
  unfold Attempt.SetsDone Attempt.calls
  constructor
  · intro h
    obtain ⟨hpg, hok, rows, hrows, hcalls⟩ := backfillSymbol_of_done (List.mem_of_mem_take h)
    have hloop := done_not_mem_loop a.pg a.symbol a.outcomes rows
    -- The write of `done` is the last call, so the first `made` calls are all of them.
    have hall : (backfillSymbol a.pg a.symbol a.outcomes).length ≤ a.made := by
      rw [hcalls] at h ⊢
      have hlength := congrArg List.length (take_eq_self_of_mem hloop h)
      rw [List.length_take] at hlength
      omega
    rw [backfillSymbol_of_rows hpg hrows, List.length_cons, List.length_append,
      length_publishRows, List.length_singleton] at hall
    exact ⟨hpg, by rw [hrows]; rfl, by omega, hok⟩
  · rintro ⟨hpg, hparsed, hmade, hok⟩
    obtain ⟨rows, hrows⟩ := Option.isSome_iff_exists.mp hparsed
    have hcalls := backfillSymbol_of_rows hpg hrows
    have hlength : (backfillSymbol a.pg a.symbol a.outcomes).length ≤ a.made := by
      rw [hcalls, List.length_cons, List.length_append, length_publishRows, List.length_singleton]
      omega
    rw [List.take_of_length_le hlength, hcalls, hok]
    simp

/-! ## The stores after a run -/

theorem stores_concat (cs : List Call) (c : Call) : stores (cs ++ [c]) = (stores cs).apply c :=
  List.foldl_concat ..

theorem klineStream_stores (cs : List Call) : (stores cs).klineStream = addedEntries cs := by
  induction cs using List.reverseRecOn with
  | nil => rfl
  | append_singleton cs c ih =>
    rw [stores_concat, addedEntries_append, ← ih]
    rcases c with ⟨symbol, status, _ | _⟩ | ⟨e, _ | _⟩ <;> simp [Stores.apply, addedEntries]

theorem mem_of_lookup_done {cs : List Call} {symbol : Symbol}
    (h : (stores cs).backfillStatus.lookup symbol = some .done) :
    Call.setStatus symbol .done true ∈ cs := by
  induction cs using List.reverseRecOn with
  | nil => cases h
  | append_singleton cs c ih =>
    rw [stores_concat] at h
    rw [List.mem_append, List.mem_singleton]
    rcases c with ⟨s, status, _ | _⟩ | ⟨e, _ | _⟩
    · exact Or.inl (ih h)
    · rw [Stores.apply, Dict.lookup_upsert] at h
      split_ifs at h with hs
      · cases h
        exact Or.inr (by rw [hs])
      · exact Or.inl (ih h)
    · exact Or.inl (ih h)
    · exact Or.inl (ih h)

theorem addedEntries_flatMap (attempts : List Attempt) :
    addedEntries (attempts.flatMap Attempt.calls) =
      attempts.flatMap fun a => addedEntries a.calls := by
  unfold addedEntries
  rw [List.filterMap_flatMap]

theorem done_means_complete_iff (attempts : List Attempt) :
    DoneMeansComplete attempts ↔ ∀ a ∈ attempts, a.Finishes → a.NoLoss := by
  simp only [← setsDone_iff]
  constructor
  · rintro ⟨hadded, -⟩ a ha hdone
    rw [← addedEntries_publishRows_eq_iff, ← addedEntries_of_setsDone hdone]
    exact hadded a ha hdone
  · intro hloss
    have hadded : ∀ a ∈ attempts, a.SetsDone → addedEntries a.calls = a.history := by
      intro a ha hdone
      rw [addedEntries_of_setsDone hdone]
      exact (addedEntries_publishRows_eq_iff a).mpr (hloss a ha hdone)
    refine ⟨hadded, fun expected hwait symbol hsymbol => ⟨?_, ?_⟩⟩
    · have hstatus := List.all_eq_true.mp hwait symbol hsymbol
      have hmem := mem_of_lookup_done (of_decide_eq_true hstatus)
      obtain ⟨a, ha, hcall⟩ := List.mem_flatMap.mp hmem
      obtain rfl := symbol_of_mem_calls hcall
      exact ⟨a, ha, rfl, hcall⟩
    · intro a ha _ hdone e he
      unfold storesAfter
      rw [klineStream_stores, addedEntries_flatMap, List.mem_flatMap]
      exact ⟨a, ha, hadded a ha hdone ▸ he⟩

/-- A backfill of one row that Redis does not take. -/
def lostRow : Attempt where
  pg := true
  symbol := "BTCUSDT"
  outcomes :=
    { inProgressOk := true
      response := some (some (.arr [.arr [.num (.ofInt 60000), .str "1", .str "2", .str "1",
        .str "1.5", .str "10", .num (.ofInt 119999), .str "15", .num (.ofInt 4), .str "5",
        .str "7.5", .str "0"]]))
      row := fun _ => .xaddError
      statusOk := true }
  made := 3

/-- Its status is `done` and its history is not in the stream. -/
theorem lostRow_not_complete : ¬ DoneMeansComplete [lostRow] := by
  rintro ⟨hadded, -⟩
  have hdone : lostRow.SetsDone := by unfold Attempt.SetsDone; decide
  have hlength := congrArg List.length (hadded lostRow (List.mem_singleton_self _) hdone)
  revert hlength
  decide

end PortfolioEngine.Ingestion
