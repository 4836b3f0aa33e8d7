import PortfolioEngine.Lib.PyJson
import PortfolioEngine.Lib.Rfc3339
import PortfolioEngine.Portfolio.Outputs

/-!
# The latest portfolio, as text

The engine writes its payload to Redis with `json.dumps` and its row to the database, where the
weights are JSON. `fetchLatestPortfolio` of the gateway decodes the text in Redis into a map of any
values and, if that fails or there is none, reads the latest row. Here both ways are followed down
to the characters. How floats are written and read, and how the database writes JSON, are
parameters.

`read_paths_agree`: after a rebalance both ways give the same point, unless a row of a later time
is in the table. `Represents.fetch` and `Represents.runRebalance` relate the texts to the outputs
without text.
-/

namespace PortfolioEngine.LatestPortfolio

open Tables GoJson Members

variable {K : Type*}

/-! ## Floats and JSON columns -/

/-- What the runtimes and the database do: `repr` of a finite float, `strconv.ParseFloat` on a JSON
number and on a string, the text of a `JSONB` value, and what `time.Parse` does with a text that it
does not take for RFC 3339. -/
structure Codec (K : Type*) where
  repr : K → List Char
  parseNumber : JsonNumber → Option K
  parseFloat : String → Option (Flt K)
  jsonb : Json → List Char
  parseOther : List Char → Option ℤ

/-- Finite floats survive being written in Python and read in Go, and a JSON object its storage. -/
structure Codec.Faithful (c : Codec K) : Prop where
  roundTrip : ∀ x, ∃ n, Json.readNumber (c.repr x) = some (n, []) ∧ c.parseNumber n = some x
  jsonb : ∀ members, Distinct members →
    ∃ members', members'.Perm members ∧ Json.loads (c.jsonb (.obj members)) = some (.obj members')

/-! ## The engine -/

/-- A rebalance that is to be stored: its payload, with its time as a `datetime`. -/
structure Rebalance (K : Type*) where
  payload : Outputs.Payload K
  nowUtc : Rfc3339.DateTime
  time_eq : payload.time = nowUtc.seconds * 1000000
  distinct : Distinct payload.weights

/-- `weights_dict`. -/
def Rebalance.weightsDict (r : Rebalance K) : PyJson.Value K :=
  .dict (r.payload.weights.map fun w => (w.1, .float w.2))

/-- `payload`. -/
def Rebalance.dict (r : Rebalance K) : List (String × PyJson.Value K) :=
  [("time", .str (String.ofList (Rfc3339.isoformat r.nowUtc))),
    ("weights", r.weightsDict),
    ("portfolio_vol", .float r.payload.portfolioVol),
    ("sharpe_proxy", .float r.payload.sharpeProxy),
    ("equity", .float r.payload.equity),
    ("transaction_cost", .float r.payload.transactionCost),
    ("turnover", .float r.payload.turnover),
    ("period_pnl", .float r.payload.periodPnl),
    ("cumulative_pnl", .float r.payload.cumulativePnl)]

/-- `str` of a float. -/
def floatStr (c : Codec K) : Flt K → List Char
  | .fin x => c.repr x
  | .inf => "inf".toList
  | .negInf => "-inf".toList
  | .nan => "nan".toList

/-- `stream_payload`. -/
def Rebalance.streamPayload (c : Codec K) (r : Rebalance K) : List (String × List Char) :=
  [("time", Rfc3339.isoformat r.nowUtc),
    ("weights", PyJson.dumps c.repr r.weightsDict),
    ("portfolio_vol", floatStr c r.payload.portfolioVol),
    ("sharpe_proxy", floatStr c r.payload.sharpeProxy),
    ("equity", floatStr c r.payload.equity),
    ("transaction_cost", floatStr c r.payload.transactionCost),
    ("turnover", floatStr c r.payload.turnover),
    ("period_pnl", floatStr c r.payload.periodPnl),
    ("cumulative_pnl", floatStr c r.payload.cumulativePnl)]

/-- A row of `portfolio_state`. -/
structure Row (K : Type*) where
  time : ℤ
  weights : Json
  portfolioVol : Option (Flt K)
  sharpeProxy : Option (Flt K)
  equity : Option (Flt K)
  transactionCost : Option (Flt K)
  turnover : Option (Flt K)
  periodPnl : Option (Flt K)
  cumulativePnl : Option (Flt K)

/-- The row of a rebalance, where `weights` is the JSON value of its weights. -/
def Rebalance.row (r : Rebalance K) (weights : Json) : Row K where
  time := r.payload.time
  weights := weights
  portfolioVol := some r.payload.portfolioVol
  sharpeProxy := some r.payload.sharpeProxy
  equity := some r.payload.equity
  transactionCost := some r.payload.transactionCost
  turnover := some r.payload.turnover
  periodPnl := some r.payload.periodPnl
  cumulativePnl := some r.payload.cumulativePnl

/-- `portfolio_state`, the portfolio stream and the latest key. -/
structure Stores (K : Type*) where
  table : List (Row K)
  stream : List (List (String × List Char))
  latest : Option (List Char)

/-- `_publish`. -/
def publish (c : Codec K) (st : Stores K) (r : Rebalance K) : Stores K :=
  { st with
    stream := st.stream ++ [r.streamPayload c]
    latest := some (PyJson.dumps c.repr (.dict r.dict)) }

/-- The writes of `_run_rebalance`, for a driver that writes a dictionary as JSON. The database
takes the weights if their text is a JSON value. -/
def runRebalance (c : Codec K) (st : Stores K) (r : Rebalance K) : Option (Stores K) :=
  (Json.loads (PyJson.dumps c.repr r.weightsDict)).map fun weights =>
    publish c { st with table := upsert Row.time (r.row weights) st.table } r

/-! ## The gateway -/

/-- `PortfolioPoint`, with its time in nanoseconds since the epoch. -/
structure Point (K : Type*) where
  time : ℤ
  weights : Symbol → Option (Flt K)
  portfolioVol : Option (Flt K)
  sharpeProxy : Option (Flt K)
  equity : Option (Flt K)
  transactionCost : Option (Flt K)
  turnover : Option (Flt K)
  periodPnl : Option (Flt K)
  cumulativePnl : Option (Flt K)

/-- The zero `time.Time`. -/
def zeroTime : ℤ := Rfc3339.epochSeconds 1 1 1 0 0 0 * 1000000000

/-- `time.Parse(time.RFC3339, v)`. -/
def parseTime (c : Codec K) (v : String) : Option ℤ :=
  (Rfc3339.parse v.toList).or (c.parseOther v.toList)

/-- `asFloatPtr`. Decoding into an `interface{}` makes no other numbers than `float64`. -/
def asFloatPtr (c : Codec K) : Option (Interface K) → Option (Flt K)
  | some (.float64 x) => some (.fin x)
  | some (.string s) => c.parseFloat s
  | _ => none

/-- The time of a payload, or the zero time. -/
def payloadTime (c : Codec K) : Option (Interface K) → ℤ
  | some (.string v) => (parseTime c v).getD zeroTime
  | _ => zeroTime

/-- The weights of a payload: its members that are numbers. -/
def payloadWeights : Option (Interface K) → Symbol → Option (Flt K)
  | some (.map weights) => fun symbol =>
    match index weights symbol with
    | some (.float64 w) => some (.fin w)
    | _ => none
  | _ => fun _ => none

/-- The point of a decoded payload. -/
def payloadPoint (c : Codec K) (payload : List (String × Interface K)) : Point K where
  time := payloadTime c (index payload "time")
  weights := payloadWeights (index payload "weights")
  portfolioVol := asFloatPtr c (index payload "portfolio_vol")
  sharpeProxy := asFloatPtr c (index payload "sharpe_proxy")
  equity := asFloatPtr c (index payload "equity")
  transactionCost := asFloatPtr c (index payload "transaction_cost")
  turnover := asFloatPtr c (index payload "turnover")
  periodPnl := asFloatPtr c (index payload "period_pnl")
  cumulativePnl := asFloatPtr c (index payload "cumulative_pnl")

section Gateway

variable [Zero K]

/-- An element of a `map[string]float64` after decoding into it: what is not a number leaves 0. -/
def floatElement (c : Codec K) : Json → K
  | .num n => (c.parseNumber n).getD 0
  | _ => 0

/-- `json.Unmarshal` of `weightsRaw` into `out.Weights`, whose error is dropped. -/
def rowWeights (c : Codec K) (weightsRaw : List Char) (symbol : Symbol) : Option (Flt K) :=
  match Json.loads weightsRaw with
  | some (.obj members) => (index members symbol).map fun v => .fin (floatElement c v)
  | _ => none

/-- The point of a row. -/
def rowPoint (c : Codec K) (row : Row K) : Point K where
  time := row.time * 1000
  weights := rowWeights c (c.jsonb row.weights)
  portfolioVol := row.portfolioVol
  sharpeProxy := row.sharpeProxy
  equity := row.equity
  transactionCost := row.transactionCost
  turnover := row.turnover
  periodPnl := row.periodPnl
  cumulativePnl := row.cumulativePnl

/-- `fetchLatestPortfolio` while both stores are reachable. An empty text does not decode. -/
def fetchLatestPortfolio (c : Codec K) (st : Stores K) : Option (Point K) :=
  match st.latest.bind (unmarshalMap c.parseNumber) with
  | some payload => some (payloadPoint c payload)
  | none => (latest Row.time st.table).map (rowPoint c)

end Gateway

/-! ## What comes back from Redis -/

/-- A point with its weights as a map. -/
def pointOf (p : Outputs.PortfolioPoint K) : Point K where
  time := p.time * 1000
  weights := fun symbol => p.weights.lookup symbol
  portfolioVol := p.portfolioVol
  sharpeProxy := p.sharpeProxy
  equity := p.equity
  transactionCost := p.transactionCost
  turnover := p.turnover
  periodPnl := p.periodPnl
  cumulativePnl := p.cumulativePnl

/-- The point of a rebalance, with all that it computed. -/
def Rebalance.point (r : Rebalance K) : Point K := pointOf r.payload.point

theorem Codec.Faithful.exists_number {c : Codec K} (hc : c.Faithful) :
    ∃ number : K → JsonNumber, PyJson.WritesNumbers c.repr number ∧
      ∀ x, c.parseNumber (number x) = some x := by
  choose number hwrites hparse using hc.roundTrip
  exact ⟨number, hwrites, hparse⟩

section Redis

variable {c : Codec K} {number : K → JsonNumber} (hparse : ∀ x, c.parseNumber (number x) = some x)

theorem Rebalance.distinct_dict (r : Rebalance K) : Distinct r.dict := by
  show ["time", "weights", "portfolio_vol", "sharpe_proxy", "equity", "transaction_cost",
    "turnover", "period_pnl", "cumulative_pnl"].Nodup
  decide

include hparse

theorem interface_float (x : Flt K) :
    PyJson.interface number c.parseNumber (.float x) = x.toFin?.map .float64 := by
  cases x with
  | fin x =>
    show (c.parseNumber (number x)).map _ = _
    rw [hparse]
    rfl
  | inf => rfl
  | negInf => rfl
  | nan => rfl

theorem asFloatPtr_interface {x : Flt K}
    (h : (PyJson.interface number c.parseNumber (.float x)).isSome) :
    asFloatPtr c (PyJson.interface number c.parseNumber (.float x)) = some x := by
  rw [interface_float hparse] at h ⊢
  cases x with
  | fin x => rfl
  | inf => cases h
  | negInf => cases h
  | nan => cases h

/-- Go reads the weights exactly if they are all finite. -/
theorem isSome_interface_weights {r : Rebalance K} :
    (PyJson.interface number c.parseNumber r.weightsDict).isSome ↔
      ∀ w ∈ r.payload.weights, w.2.toFin?.isSome := by
  unfold Rebalance.weightsDict
  rw [PyJson.interface_dict, Option.isSome_map, collect_isSome]
  simp only [mem_sortKeys, List.mem_map, exists_exists_and_eq_and, forall_exists_index, and_imp,
    forall_apply_eq_imp_iff₂, interface_float hparse, Option.isSome_map]

theorem payloadWeights_interface {r : Rebalance K}
    (h : ∀ w ∈ r.payload.weights, w.2.toFin?.isSome) :
    payloadWeights (PyJson.interface number c.parseNumber r.weightsDict) =
      fun symbol => r.payload.weights.lookup symbol := by
  have hdistinct : Distinct (r.payload.weights.map fun w => (w.1, PyJson.Value.float w.2)) :=
    distinct_map.mpr r.distinct
  obtain ⟨m, hm⟩ := Option.isSome_iff_exists.mp ((isSome_interface_weights hparse).mpr h)
  have hdict := hm
  unfold Rebalance.weightsDict at hdict
  rw [PyJson.interface_dict] at hdict
  obtain ⟨ws, hws, rfl⟩ := Option.map_eq_some_iff.mp hdict
  rw [hm]
  funext symbol
  have hindex := PyJson.index_collect hdistinct hws symbol
  rw [lookup_map] at hindex
  simp only [payloadWeights, hindex]
  cases hw : r.payload.weights.lookup symbol with
  | none => rfl
  | some w =>
    have hfinite := h _ ((lookup_eq_some_iff r.distinct).mp hw)
    rw [Option.map_some, Option.bind_some, interface_float hparse]
    cases w with
    | fin x => rfl
    | inf => cases hfinite
    | negInf => cases hfinite
    | nan => cases hfinite

theorem isSome_unmarshalMap (hwrites : PyJson.WritesNumbers c.repr number) (r : Rebalance K) :
    (unmarshalMap c.parseNumber (PyJson.dumps c.repr (.dict r.dict))).isSome ↔
      r.payload.isFinite = true := by
  have htime : (PyJson.interface number c.parseNumber
      (.str (String.ofList (Rfc3339.isoformat r.nowUtc)))).isSome := rfl
  rw [PyJson.unmarshalMap_isSome hwrites]
  unfold Rebalance.dict Outputs.Payload.isFinite
  simp only [List.forall_mem_cons, htime, isSome_interface_weights hparse, interface_float hparse,
    Option.isSome_map, List.all_append, List.all_map, List.all_cons, List.all_nil, true_and,
    Bool.and_eq_true, List.all_eq_true, Function.comp_apply]
  simp

theorem payloadPoint_dumps (hwrites : PyJson.WritesNumbers c.repr number) {r : Rebalance K}
    {m : List (String × Interface K)}
    (hm : unmarshalMap c.parseNumber (PyJson.dumps c.repr (.dict r.dict)) = some m) :
    payloadPoint c m = r.point := by
  have hall := (PyJson.unmarshalMap_isSome hwrites).mp (Option.isSome_iff_exists.mpr ⟨m, hm⟩)
  rw [PyJson.unmarshalMap_dumps hwrites] at hm
  have hindex : ∀ key v, r.dict.lookup key = some v →
      index m key = PyJson.interface number c.parseNumber v := fun key v hv => by
    rw [PyJson.index_collect r.distinct_dict hm, hv, Option.bind_some]
  have hfloat : ∀ key x, r.dict.lookup key = some (.float x) →
      asFloatPtr c (index m key) = some x := fun key x hx => by
    rw [hindex key _ hx]
    exact asFloatPtr_interface hparse (hall _ ((lookup_eq_some_iff r.distinct_dict).mp hx))
  have htime : payloadTime c (index m "time") = r.payload.time * 1000 := by
    rw [hindex "time" _ rfl]
    show (parseTime c (String.ofList (Rfc3339.isoformat r.nowUtc))).getD zeroTime = _
    unfold parseTime
    rw [String.toList_ofList, Rfc3339.parse_isoformat, r.time_eq]
    simp only [Option.some_or, Option.getD_some]
    omega
  have hweights : payloadWeights (index m "weights") =
      fun symbol => r.payload.weights.lookup symbol := by
    have hmem : ("weights", r.weightsDict) ∈ r.dict :=
      List.mem_cons_of_mem _ List.mem_cons_self
    rw [hindex "weights" _ rfl]
    exact payloadWeights_interface hparse ((isSome_interface_weights hparse).mp (hall _ hmem))
  unfold payloadPoint
  rw [htime, hweights, hfloat "portfolio_vol" _ rfl, hfloat "sharpe_proxy" _ rfl,
    hfloat "equity" _ rfl, hfloat "transaction_cost" _ rfl, hfloat "turnover" _ rfl,
    hfloat "period_pnl" _ rfl, hfloat "cumulative_pnl" _ rfl]
  rfl

end Redis

/-! ## What comes back from the database -/

/-- The JSON value of a float, if it has one. -/
def floatJson (number : K → JsonNumber) (x : Flt K) : Option Json :=
  x.toFin?.map fun x => .num (number x)

section Database

variable {c : Codec K} {number : K → JsonNumber} (hwrites : PyJson.WritesNumbers c.repr number)

include hwrites

theorem loads_weights (r : Rebalance K) :
    Json.loads (PyJson.dumps c.repr r.weightsDict) =
      (collect (sortKeys (r.payload.weights.map fun w => (w.1, floatJson number w.2)))).map
        .obj := by
  unfold Rebalance.weightsDict
  rw [PyJson.loads_dumps hwrites, PyJson.toJson, PyJson.toJsonEntries_eq, List.map_map]
  simp only [Function.comp_def, PyJson.toJson]
  rfl

theorem isSome_loads_weights (r : Rebalance K) :
    (Json.loads (PyJson.dumps c.repr r.weightsDict)).isSome ↔
      ∀ w ∈ r.payload.weights, w.2.toFin?.isSome := by
  rw [loads_weights hwrites, Option.isSome_map, collect_isSome]
  simp only [mem_sortKeys, List.mem_map, forall_exists_index, and_imp,
    forall_apply_eq_imp_iff₂, floatJson, Option.isSome_map]

theorem rowPoint_row [Zero K] (hc : c.Faithful) (hparse : ∀ x, c.parseNumber (number x) = some x)
    {r : Rebalance K} {weights : Json}
    (h : Json.loads (PyJson.dumps c.repr r.weightsDict) = some weights) :
    rowPoint c (r.row weights) = r.point := by
  have hfinite := (isSome_loads_weights hwrites r).mp (Option.isSome_iff_exists.mpr ⟨_, h⟩)
  rw [loads_weights hwrites] at h
  obtain ⟨ms, hms, rfl⟩ := Option.map_eq_some_iff.mp h
  have hdistinct : Distinct (r.payload.weights.map fun w => (w.1, floatJson number w.2)) :=
    distinct_map.mpr r.distinct
  have hperm := List.mergeSort_perm (r.payload.weights.map fun w => (w.1, floatJson number w.2))
    fun a b => decide (a.1 ≤ b.1)
  have hms' : Distinct ms := distinct_collect hms hperm hdistinct
  obtain ⟨stored, hstored, hloads⟩ := hc.jsonb ms hms'
  have hweights : rowWeights c (c.jsonb (.obj ms)) =
      fun symbol => r.payload.weights.lookup symbol := by
    funext symbol
    unfold rowWeights index
    rw [hloads]
    simp only
    rw [lookup_perm (stored.reverse_perm.trans hstored) hms', ← lookup_perm ms.reverse_perm hms',
      lookup_collect hms hperm hdistinct, lookup_map]
    cases hw : r.payload.weights.lookup symbol with
    | none => rfl
    | some w =>
      have hfin := hfinite _ ((lookup_eq_some_iff r.distinct).mp hw)
      cases w with
      | fin x =>
        show some (Flt.fin ((c.parseNumber (number x)).getD 0)) = _
        rw [hparse]
        rfl
      | inf => cases hfin
      | negInf => cases hfin
      | nan => cases hfin
  unfold rowPoint Rebalance.row
  rw [hweights]
  rfl

end Database

/-! ## The two ways -/

section Ways

variable [Zero K] {c : Codec K} {st st' : Stores K} {r : Rebalance K}

/-- The stores with the latest key absent. -/
def Stores.withoutKey (st : Stores K) : Stores K := { st with latest := none }

/-- What a successful rebalance leaves behind. -/
theorem runRebalance_spec (hc : c.Faithful) (h : runRebalance c st r = some st') :
    st'.latest = some (PyJson.dumps c.repr (.dict r.dict)) ∧
      ∃ row, row.time = r.payload.time ∧ rowPoint c row = r.point ∧
        st'.table = upsert Row.time row st.table := by
  obtain ⟨number, hwrites, hparse⟩ := hc.exists_number
  obtain ⟨weights, hloads, rfl⟩ := Option.map_eq_some_iff.mp h
  exact ⟨rfl, r.row weights, rfl, rowPoint_row hwrites hc hparse hloads, rfl⟩

omit [Zero K] in
theorem payloadPoint_key (hc : c.Faithful) (r : Rebalance K) :
    (unmarshalMap c.parseNumber (PyJson.dumps c.repr (.dict r.dict))).map (payloadPoint c) =
      if r.payload.isFinite = true then some r.point else none := by
  obtain ⟨number, hwrites, hparse⟩ := hc.exists_number
  have hsome := isSome_unmarshalMap hparse hwrites r
  cases hm : unmarshalMap c.parseNumber (PyJson.dumps c.repr (.dict r.dict)) with
  | none =>
    rw [hm] at hsome
    rw [if_neg fun hfinite => nomatch hsome.mpr hfinite]
    rfl
  | some m =>
    rw [hm] at hsome
    rw [if_pos (hsome.mp rfl)]
    exact congrArg some (payloadPoint_dumps hparse hwrites hm)

/-- The key goes before the table. -/
theorem fetch_eq (st : Stores K) :
    fetchLatestPortfolio c st =
      ((st.latest.bind (unmarshalMap c.parseNumber)).map (payloadPoint c)).or
        (fetchLatestPortfolio c st.withoutKey) := by
  show (match st.latest.bind (unmarshalMap c.parseNumber) with
    | some payload => some (payloadPoint c payload)
    | none => (latest Row.time st.table).map (rowPoint c)) = _
  cases st.latest.bind (unmarshalMap c.parseNumber) <;> rfl

theorem served_of_finite (hc : c.Faithful)
    (hlatest : st.latest = some (PyJson.dumps c.repr (.dict r.dict)))
    (hfinite : r.payload.isFinite = true) : fetchLatestPortfolio c st = some r.point := by
  rw [fetch_eq, hlatest, Option.bind_some, payloadPoint_key hc, if_pos hfinite, Option.some_or]

theorem served_of_not_finite (hc : c.Faithful)
    (hlatest : st.latest = some (PyJson.dumps c.repr (.dict r.dict)))
    (hfinite : ¬ r.payload.isFinite = true) :
    fetchLatestPortfolio c st = fetchLatestPortfolio c st.withoutKey := by
  rw [fetch_eq, hlatest, Option.bind_some, payloadPoint_key hc, if_neg hfinite, Option.none_or]

theorem fetch_withoutKey (st : Stores K) :
    fetchLatestPortfolio c st.withoutKey = (latest Row.time st.table).map (rowPoint c) := rfl

/-! ## The outputs without text -/

/-- The stores show the gateway what the outputs of a rebalance are in `s`. -/
structure Represents (c : Codec K) (s : Outputs.State K) (st : Stores K) : Prop where
  rows : st.table.map (rowPoint c) = s.table.map fun row => pointOf (Outputs.rowPoint row)
  key : (st.latest.bind (unmarshalMap c.parseNumber)).map (payloadPoint c) =
    (s.key.bind Outputs.KeyValue.parse).map fun p => pointOf p.point

variable {s : Outputs.State K}

/-- The time of a point in microseconds. -/
def Point.micros (p : Point K) : ℤ := p.time / 1000

theorem micros_rowPoint (row : Row K) : (rowPoint c row).micros = row.time := by
  show row.time * 1000 / 1000 = row.time
  omega

omit [Zero K] in
theorem micros_pointOf (row : Ledger.PortfolioRow (Flt K)) :
    (pointOf (Outputs.rowPoint row)).micros = row.time := by
  show row.time * 1000 / 1000 = row.time
  omega

/-- The gateway serves what it serves without text. -/
theorem Represents.fetch (h : Represents c s st) :
    fetchLatestPortfolio c st = (Outputs.fetchLatestPortfolio s).map pointOf := by
  have htable : (latest Row.time st.table).map (rowPoint c) =
      (Outputs.latestRow s).map pointOf := by
    unfold Outputs.latestRow
    rw [← latest_map micros_rowPoint, h.rows, latest_map micros_pointOf, Option.map_map]
    rfl
  rw [fetch_eq, h.key, fetch_withoutKey, htable]
  unfold Outputs.fetchLatestPortfolio
  cases s.key.bind Outputs.KeyValue.parse <;> rfl

/-- A rebalance does to the texts what it does without them. -/
theorem Represents.runRebalance (hc : c.Faithful) (h : Represents c s st)
    (hrun : runRebalance c st r = some st') :
    Represents c (Outputs.runRebalance s r.payload none).1 st' := by
  obtain ⟨hlatest, row, _, hpoint, htable⟩ := runRebalance_spec hc hrun
  have hrow : rowPoint c row = pointOf (Outputs.rowPoint r.payload.row) := hpoint
  rw [Outputs.runRebalance_eq]
  constructor
  · show st'.table.map (rowPoint c) = (upsert _ _ _).map _
    rw [htable, ← upsert_map micros_rowPoint, h.rows, ← upsert_map micros_pointOf, hrow]
  · rw [hlatest, Option.bind_some, payloadPoint_key hc, Option.bind_some]
    unfold Outputs.KeyValue.parse
    dsimp only
    split_ifs <;> rfl

end Ways

/-- **The two ways agree.** A rebalance with finite weights stores its row and publishes its
payload, after which the gateway gives the point of that row, from Redis if all numbers are finite.
It gives the same without the key unless Redis hides a row of a later time. -/
theorem read_paths_agree [Zero K] {c : Codec K} (hc : c.Faithful) (st : Stores K)
    (r : Rebalance K) (hweights : ∀ w ∈ r.payload.weights, w.2.toFin?.isSome) :
    ∃ st', runRebalance c st r = some st' ∧
      (∃ row ∈ st'.table, row.time = r.payload.time ∧ rowPoint c row = r.point ∧
        (r.payload.isFinite = true → fetchLatestPortfolio c st' = some (rowPoint c row))) ∧
      ((∀ row ∈ st.table, row.time ≤ r.payload.time) →
        fetchLatestPortfolio c st' = some r.point ∧
          fetchLatestPortfolio c st'.withoutKey = some r.point) ∧
      (fetchLatestPortfolio c st' = fetchLatestPortfolio c st'.withoutKey ↔
        (r.payload.isFinite = true → ∀ row ∈ st.table, row.time ≤ r.payload.time)) := by
  obtain ⟨number, hwrites, _⟩ := hc.exists_number
  obtain ⟨weights, hloads⟩ :=
    Option.isSome_iff_exists.mp ((isSome_loads_weights hwrites r).mpr hweights)
  obtain ⟨st', h⟩ : ∃ st', runRebalance c st r = some st' :=
    ⟨_, Option.map_eq_some_iff.mpr ⟨weights, hloads, rfl⟩⟩
  obtain ⟨hlatest, row, htime, hpoint, htable⟩ := runRebalance_spec hc h
  have hrow : row ∈ st'.table := htable ▸ mem_upsert_self Row.time row st.table
  have hnewest : (∀ x ∈ st.table, x.time ≤ r.payload.time) →
      fetchLatestPortfolio c st'.withoutKey = some r.point := fun hle => by
    rw [fetch_withoutKey, htable, latest_upsert (htime ▸ hle), Option.map_some, hpoint]
  refine ⟨st', h, ⟨row, hrow, htime, hpoint, fun hfinite => ?_⟩, fun hle => ?_, ?_⟩
  · rw [hpoint]
    exact served_of_finite hc hlatest hfinite
  · refine ⟨?_, hnewest hle⟩
    by_cases hfinite : r.payload.isFinite = true
    · exact served_of_finite hc hlatest hfinite
    · exact (served_of_not_finite hc hlatest hfinite).trans (hnewest hle)
  · constructor
    -- a later row would be the one read from the table, at another time than the key shows
    · intro hsame hfinite x hx
      by_contra hlater
      obtain ⟨y, hy, hyx⟩ := exists_mem_upsert Row.time row hx
      obtain ⟨z, hz⟩ := latest_isSome Row.time (htable ▸ hrow)
      have hyz := le_of_latest hz hy
      rw [served_of_finite hc hlatest hfinite, fetch_withoutKey, htable, hz] at hsame
      have htimes : r.payload.time * 1000 = z.time * 1000 :=
        congrArg Point.time (Option.some.inj hsame)
      omega
    · intro hle
      by_cases hfinite : r.payload.isFinite = true
      · rw [served_of_finite hc hlatest hfinite, hnewest (hle hfinite)]
      · exact served_of_not_finite hc hlatest hfinite

/-! ## Whole numbers -/

/-- Python writes a whole number with one digit after the point. -/
def wholeNumber (z : ℤ) : JsonNumber := ⟨decide (z < 0), z.natAbs, [⟨0, by decide⟩], none⟩

/-- Floats that are whole numbers, and a database that writes its members in the order in which it
got them. -/
def wholeCodec : Codec ℤ where
  repr z := Json.numberText (wholeNumber z)
  parseNumber n :=
    if n.frac.all (·.val = 0) ∧ n.exp.isNone then some (if n.neg then -n.int else n.int) else none
  parseFloat _ := none
  jsonb
    | .obj members =>
      PyJson.objectText (members.map fun m => (m.1, Json.render PyJson.escaping m.2))
    | v => Json.render PyJson.escaping v
  parseOther _ := none

theorem wholeCodec_faithful : wholeCodec.Faithful where
  roundTrip z := by
    have hread : Json.readNumber (Json.numberText (wholeNumber z) ++ []) =
        some (wholeNumber z, []) := Json.readNumber_numberText _ trivial
    have hvalue : (if decide (z < 0) = true then -(z.natAbs : ℤ) else z.natAbs) = z := by
      simp only [decide_eq_true_eq]
      split_ifs <;> omega
    rw [List.append_nil] at hread
    refine ⟨wholeNumber z, hread, ?_⟩
    unfold wholeCodec wholeNumber
    dsimp only
    rw [hvalue, if_pos ⟨rfl, rfl⟩]
  jsonb members _ := by
    have hreads : ∀ e ∈ members.map fun m => (m.1, Json.render PyJson.escaping m.2, some m.2),
        PyJson.Reads e.2.1 e.2.2 := by
      intro e he
      obtain ⟨m, _, rfl⟩ := List.mem_map.mp he
      exact fun n rest hn hrest => Json.readValue_render PyJson.escaping m.2 hn hrest
    have hvalues : collect (PyJson.values (members.map fun m =>
        (m.1, Json.render PyJson.escaping m.2, some m.2))) = some members := by
      unfold PyJson.values
      rw [List.map_map]
      exact collect_eq_some.mpr rfl
    have hloads := (PyJson.reads_objectText hreads).loads
    unfold PyJson.texts at hloads
    rw [hvalues, List.map_map] at hloads
    exact ⟨members, .refl _, hloads⟩

/-- The first rebalance of one symbol, on 29 February 2024 at five past midnight. -/
def firstRebalance : Rebalance ℤ where
  payload := ⟨1709165100000000, [("BTCUSDT", .fin 1)], .fin 0, .fin 0, .fin 1, .fin 0, .fin 0,
    .fin 0, .fin 0⟩
  nowUtc := ⟨2024, 2, 29, 0, 5, 0, by decide, by decide, by decide, by decide, by decide, by decide⟩
  time_eq := by decide
  distinct := List.nodup_singleton _

/-- The theorem for it. -/
theorem read_paths_agree_first :
    ∃ st', runRebalance wholeCodec ⟨[], [], none⟩ firstRebalance = some st' ∧
      (∃ row ∈ st'.table, row.time = firstRebalance.payload.time ∧
        rowPoint wholeCodec row = firstRebalance.point ∧
          (firstRebalance.payload.isFinite = true →
            fetchLatestPortfolio wholeCodec st' = some (rowPoint wholeCodec row))) ∧
      ((∀ row ∈ ([] : List (Row ℤ)), row.time ≤ firstRebalance.payload.time) →
        fetchLatestPortfolio wholeCodec st' = some firstRebalance.point ∧
          fetchLatestPortfolio wholeCodec st'.withoutKey = some firstRebalance.point) ∧
      (fetchLatestPortfolio wholeCodec st' = fetchLatestPortfolio wholeCodec st'.withoutKey ↔
        (firstRebalance.payload.isFinite = true →
          ∀ row ∈ ([] : List (Row ℤ)), row.time ≤ firstRebalance.payload.time)) :=
  read_paths_agree wholeCodec_faithful ⟨[], [], none⟩ firstRebalance (by decide)

example : PyJson.dumps wholeCodec.repr firstRebalance.weightsDict =
    "\x7b\"BTCUSDT\": 1.0\x7d".toList := by decide +kernel

end PortfolioEngine.LatestPortfolio
