import PortfolioEngine.Ingestion.Backfill
import PortfolioEngine.Ingestion.HttpClient

/-!
# The status after a backfill

`backfillHistorical` over any list of symbols, with the responses of `retryableGet` and with writes
to `backfill_status` that succeed. The status of a symbol is set twice in its turn, unless the body
is not an array of arrays: then the loop goes on to the next symbol.

`terminal_status_iff`: all symbols end as `done` or `failed` exactly if the last turn of none of
them meets such a body.
-/

namespace PortfolioEngine.Ingestion

open GoJson Json

/-! ## Turns -/

def baseURL : String := "https://fapi.binance.com/fapi/v1/klines"

def limit : ℕ := 1500

/-- `apiURL`, up to the last minute that is over. -/
def apiURL (symbol : Symbol) (now : ℤ) : String :=
  let endTime := truncMinute now / 1000 - 1
  s!"{baseURL}?symbol={symbol}&interval={interval}&limit={limit}&endTime={endTime}"

/-- The turn of a symbol: the time, how the requests end and how the rows are published. -/
structure Turn where
  symbol : Symbol
  now : ℤ
  http : ℕ → Outcome
  row : ℕ → RowOutcome

section Run

-- The value of a body, `none` if it is not JSON.
variable (parse : Bytes → Option Json)

namespace Turn

/-- The body that `retryableGet` returns, if any. -/
def response (t : Turn) : Option (Option Json) :=
  match (retryableGet (apiURL t.symbol t.now) t.http).2 with
  | .body body => some (parse body)
  | .error _ => none

def outcomes (t : Turn) : Outcomes where
  inProgressOk := true
  response := t.response parse
  row := t.row
  statusOk := true

end Turn

/-- The calls of `backfillHistorical` over the symbols of the turns. -/
def backfillTurns (turns : List Turn) : List Call :=
  turns.flatMap fun t => backfillSymbol true t.symbol (t.outcomes parse)

/-- The symbols of the service. -/
theorem backfillTurns_symbols (turn : Symbol → Turn) (h : ∀ symbol, (turn symbol).symbol = symbol) :
    backfillTurns parse (symbols.map turn) =
      backfillHistorical true fun symbol => (turn symbol).outcomes parse := by
  unfold backfillTurns backfillHistorical
  rw [List.flatMap_map]
  simp only [h]

/-- The status is `done` or `failed`. -/
def Terminal (st : Stores) (symbol : Symbol) : Prop :=
  st.backfillStatus.lookup symbol = some .done ∨ st.backfillStatus.lookup symbol = some .failed

/-- The answer is a body with status 200 that is not a JSON array of arrays. -/
def Turn.Unparsed (t : Turn) : Prop :=
  ∃ n resp, FirstAnswer t.http n resp ∧ resp.statusCode = 200 ∧
    (parse resp.body).bind rawRows = none

/-- The last turn of a symbol. -/
def LastTurn (turns : List Turn) (t : Turn) : Prop :=
  turns.reverse.find? (fun u => u.symbol = t.symbol) = some t

/-! ## One turn -/

/-- The status that a turn leaves. -/
def Turn.status (t : Turn) : Status :=
  match t.response parse with
  | none => .failed
  | some body =>
    match body.bind rawRows with
    | none => .inProgress
    | some _ => .done

theorem foldl_setBackfillStatus (st : Stores) (symbol : Symbol) (status : Status) :
    (setBackfillStatus true symbol status true).foldl Stores.apply st =
      { st with backfillStatus := Tables.upsert Prod.fst (symbol, status) st.backfillStatus } := rfl

theorem backfillStatus_publishRows (symbol : Symbol) (outcome : ℕ → RowOutcome)
    (rows : List (List Json)) (st : Stores) :
    ((publishRows symbol outcome rows).foldl Stores.apply st).backfillStatus =
      st.backfillStatus := by
  unfold publishRows
  induction rows.zipIdx generalizing st with
  | nil => rfl
  | cons x xs ih =>
    rw [List.flatMap_cons, List.foldl_append, ih]
    unfold publishRow
    cases rowKline symbol x.1 <;> cases outcome x.2 <;> rfl

theorem lookup_turn (t : Turn) (st : Stores) (symbol : Symbol) :
    ((backfillSymbol true t.symbol (t.outcomes parse)).foldl Stores.apply st).backfillStatus.lookup
        symbol =
      if symbol = t.symbol then some (t.status parse) else st.backfillStatus.lookup symbol := by
  unfold backfillSymbol Turn.status
  rw [List.foldl_append]
  show List.lookup symbol (List.foldl Stores.apply
    ((setBackfillStatus true t.symbol .inProgress true).foldl Stores.apply st)
    (match t.response parse with
      | none => setBackfillStatus true t.symbol .failed true
      | some body =>
        match body.bind rawRows with
        | none => []
        | some rows => publishRows t.symbol t.row rows ++
            setBackfillStatus true t.symbol .done true)).backfillStatus = _
  rw [foldl_setBackfillStatus]
  have htwice : ∀ status status' (d : Dict Status),
      (Tables.upsert Prod.fst (t.symbol, status)
        (Tables.upsert Prod.fst (t.symbol, status') d)).lookup symbol =
      if symbol = t.symbol then some status else d.lookup symbol := by
    intro status status' d
    rw [Dict.lookup_upsert, Dict.lookup_upsert]
    split_ifs <;> rfl
  -- three ways through the turn; the middle one returns without a second write
  cases t.response parse with
  | none => exact htwice .failed .inProgress st.backfillStatus
  | some body =>
    cases hrows : body.bind rawRows with
    | none =>
      simp only [hrows]
      exact Dict.lookup_upsert (t.symbol, .inProgress) st.backfillStatus symbol
    | some rows =>
      simp only [hrows]
      rw [List.foldl_append, foldl_setBackfillStatus, backfillStatus_publishRows]
      exact htwice .done .inProgress st.backfillStatus

theorem status_eq_inProgress (t : Turn) : t.status parse = .inProgress ↔ t.Unparsed parse := by
  unfold Turn.status Turn.response
  constructor
  · intro h
    cases hresult : (retryableGet (apiURL t.symbol t.now) t.http).2 with
    | error e =>
      simp [hresult] at h
    | body b =>
      obtain ⟨n, resp, hfirst, hbody⟩ := result_of_body hresult
      obtain ⟨hstatus, rfl⟩ := result_eq_body.mp hbody
      refine ⟨n, resp, hfirst, hstatus, ?_⟩
      simp only [hresult] at h
      cases hrows : (parse resp.body).bind rawRows with
      | none => rfl
      | some rows => simp [hrows] at h
  · rintro ⟨n, resp, hfirst, hstatus, hrows⟩
    have hresult : (retryableGet (apiURL t.symbol t.now) t.http).2 = .body resp.body := by
      rw [retryableGet_of_stops _ hfirst.stops, hfirst.resultAt]
      exact result_eq_body.mpr ⟨hstatus, rfl⟩
    simp only [hresult, hrows]

/-! ## The run -/

theorem lookup_backfillTurns (turns : List Turn) (st : Stores) (symbol : Symbol) :
    ((backfillTurns parse turns).foldl Stores.apply st).backfillStatus.lookup symbol =
      match turns.reverse.find? fun u => u.symbol = symbol with
      | some t => some (t.status parse)
      | none => st.backfillStatus.lookup symbol := by
  unfold backfillTurns
  induction turns using List.reverseRecOn with
  | nil => rfl
  | append_singleton turns t ih =>
    rw [List.flatMap_append, List.foldl_append, List.flatMap_singleton, lookup_turn, ih,
      List.reverse_concat, List.find?_cons]
    by_cases hs : t.symbol = symbol
    · rw [if_pos hs.symm]
      simp [hs]
    · rw [if_neg (Ne.symm hs)]
      simp [hs]

/-- The status of a symbol is terminal exactly if its last turn gets a body that parses or none. -/
theorem terminal_iff {turns : List Turn} {t : Turn} (h : LastTurn turns t) (st : Stores) :
    Terminal ((backfillTurns parse turns).foldl Stores.apply st) t.symbol ↔
      ¬ t.Unparsed parse := by
  have hlookup : ((backfillTurns parse turns).foldl Stores.apply st).backfillStatus.lookup
      t.symbol = some (t.status parse) := by
    have hfind : turns.reverse.find? (fun u => u.symbol = t.symbol) = some t := h
    rw [lookup_backfillTurns, hfind]
  unfold Terminal
  rw [hlookup, ← status_eq_inProgress]
  cases t.status parse <;> simp

theorem exists_lastTurn {turns : List Turn} {t : Turn} (ht : t ∈ turns) :
    ∃ u, LastTurn turns u ∧ u.symbol = t.symbol := by
  obtain ⟨u, hu⟩ : ∃ u, turns.reverse.find? (fun u => u.symbol = t.symbol) = some u := by
    rw [← Option.isSome_iff_exists, List.find?_isSome]
    exact ⟨t, List.mem_reverse.mpr ht, decide_eq_true rfl⟩
  have hsymbol : u.symbol = t.symbol := by simpa using List.find?_some hu
  refine ⟨u, ?_, hsymbol⟩
  unfold LastTurn
  rw [hsymbol]
  exact hu

/-- **All symbols end with a terminal status** exactly if the last turn of none of them is answered
by a body that is not an array of arrays. -/
theorem terminal_status_iff (turns : List Turn) (st : Stores) :
    (∀ symbol ∈ turns.map Turn.symbol,
      Terminal ((backfillTurns parse turns).foldl Stores.apply st) symbol) ↔
      ∀ t, LastTurn turns t → ¬ t.Unparsed parse := by
  constructor
  · intro h t hlast
    have ht : t ∈ turns := List.mem_reverse.mp (List.mem_of_find?_eq_some hlast)
    exact (terminal_iff parse hlast st).mp (h t.symbol (List.mem_map_of_mem ht))
  · intro h symbol hsymbol
    obtain ⟨t, ht, rfl⟩ := List.mem_map.mp hsymbol
    obtain ⟨u, hlast, hu⟩ := exists_lastTurn ht
    exact hu ▸ (terminal_iff parse hlast st).mpr (h u hlast)

end Run

/-- A body of ASCII characters. -/
def parseAscii (body : Bytes) : Option Json := loads (body.map fun c => Char.ofNat c.toNat)

/-- A symbol whose body is an object without members. -/
def objectBody : Turn where
  symbol := "BTCUSDT"
  now := 0
  http := fun _ => .response ⟨200, "", [123, 125]⟩
  row := fun _ => .added

/-- Its status stays `in_progress`. -/
theorem objectBody_in_progress :
    ((backfillTurns parseAscii [objectBody]).foldl Stores.apply ⟨[], []⟩).backfillStatus.lookup
        "BTCUSDT" = some .inProgress ∧
    ¬ ∀ symbol ∈ [objectBody].map Turn.symbol,
      Terminal ((backfillTurns parseAscii [objectBody]).foldl Stores.apply ⟨[], []⟩) symbol := by
  have hstatus : ((backfillTurns parseAscii [objectBody]).foldl Stores.apply
      ⟨[], []⟩).backfillStatus.lookup "BTCUSDT" = some .inProgress := by decide
  refine ⟨hstatus, fun h => ?_⟩
  rcases h "BTCUSDT" List.mem_cons_self with hdone | hfailed
  · exact absurd (hstatus.symm.trans hdone) (by decide)
  · exact absurd (hstatus.symm.trans hfailed) (by decide)

end PortfolioEngine.Ingestion
