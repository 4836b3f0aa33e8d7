import PortfolioEngine.Ingestion.Backfill
import PortfolioEngine.Lib.Interleave
import PortfolioEngine.Lib.Runs

/-!
# The backfill beside the live candles

`main` of `ingestion/main.go` connects to the WebSocket, starts `backfillHistorical` in a goroutine
and reads messages at the same time. Both add to one stream, and the goroutine ends with `main`.

`stores_interleave`: in whatever order they run and however often the service is started, the
status table is what the backfills alone leave, and the stream has what they alone add and the
closed candles of the messages, each in its order.
-/

namespace PortfolioEngine.Ingestion.Producers

open GoJson Json

/-! ## The service -/

/-- The stores and, while the service runs, the calls that its goroutine is still to make. -/
structure World where
  stores : Stores
  goroutine : Option (List Call)

inductive Event where
  /-- The socket is open; `outcomes` is how the calls of the backfill are going to end. -/
  | start (pg : Bool) (outcomes : Symbol → Outcomes)
  /-- The goroutine makes its next call. -/
  | backfill
  /-- `ReadMessage` returns a message, `none` if it is not JSON; `ok` is how its `XADD` ends. -/
  | message (m : Option Json) (ok : Bool)
  /-- `ReadMessage` fails and `main` returns, or the service is killed. -/
  | stop

/-- The loop of `main` on one message. -/
def consumeMessage (st : Stores) (m : Option Json) (ok : Bool) : Stores :=
  match messageKline m with
  | none => st
  | some k => st.apply (.xadd k.entry ok)

/-- One event. -/
def step (w : World) : Event → Option World
  | .start pg outcomes =>
    match w.goroutine with
    | none => some { w with goroutine := some (backfillHistorical pg outcomes) }
    | some _ => none
  | .backfill =>
    match w.goroutine with
    | some (c :: calls) => some ⟨w.stores.apply c, some calls⟩
    | _ => none
  | .message m ok =>
    match w.goroutine with
    | some calls => some ⟨consumeMessage w.stores m ok, some calls⟩
    | none => none
  | .stop =>
    match w.goroutine with
    | some _ => some { w with goroutine := none }
    | none => none

def World.start : World := ⟨⟨[], []⟩, none⟩

/-! ## Each producer alone -/

/-- A start of the service whose goroutine has made the first `made` calls. -/
structure Life where
  pg : Bool
  outcomes : Symbol → Outcomes
  made : ℕ

namespace Life

variable (l : Life)

/-- How it was started. -/
def start : Bool × (Symbol → Outcomes) := (l.pg, l.outcomes)

def calls : List Call := (backfillHistorical l.pg l.outcomes).take l.made

/-- The backfills of its symbols. -/
def attempts : List Attempt := attemptsOf l.pg l.outcomes symbols l.made

end Life

/-- How the service was started each time. -/
def starts (events : List Event) : List (Bool × (Symbol → Outcomes)) :=
  events.filterMap fun
    | .start pg outcomes => some (pg, outcomes)
    | _ => none

/-- The entries of the closed candles that were read and added. -/
def published (events : List Event) : List KlineEntry :=
  events.filterMap fun
    | .message m true => (messageKline m).map Kline.entry
    | _ => none

theorem storesAfter_attempts (lives : List Life) :
    storesAfter (lives.flatMap Life.attempts) = stores (lives.flatMap Life.calls) := by
  unfold storesAfter
  rw [List.flatMap_assoc]
  refine congrArg (fun f => stores (lives.flatMap f)) (funext fun l => ?_)
  exact flatMap_calls_attemptsOf l.pg l.outcomes l.made

/-! ## What a step does -/

/-- From which state an event leads to which. -/
inductive Steps (w : World) : Event → World → Prop
  | start (pg : Bool) (outcomes : Symbol → Outcomes) (down : w.goroutine = none) :
      Steps w (.start pg outcomes) { w with goroutine := some (backfillHistorical pg outcomes) }
  | backfill (c : Call) (calls : List Call) (up : w.goroutine = some (c :: calls)) :
      Steps w .backfill ⟨w.stores.apply c, some calls⟩
  | message (m : Option Json) (ok : Bool) (calls : List Call) (up : w.goroutine = some calls) :
      Steps w (.message m ok) ⟨consumeMessage w.stores m ok, some calls⟩
  | stop (calls : List Call) (up : w.goroutine = some calls) :
      Steps w .stop { w with goroutine := none }

theorem steps_of_step {w w' : World} {e : Event} (h : step w e = some w') : Steps w e w' := by
  cases e with
  | start pg outcomes =>
    simp only [step] at h
    split at h
    next hw =>
      cases h
      exact .start pg outcomes hw
    · cases h
  | backfill =>
    simp only [step] at h
    split at h
    next c calls hw =>
      cases h
      exact .backfill c calls hw
    · cases h
  | message m ok =>
    simp only [step] at h
    split at h
    next calls hw =>
      cases h
      exact .message m ok calls hw
    · cases h
  | stop =>
    simp only [step] at h
    split at h
    next calls hw =>
      cases h
      exact .stop calls hw
    · cases h

/-! ## One call -/

theorem klineStream_apply (st : Stores) (c : Call) :
    (st.apply c).klineStream = st.klineStream ++ addedEntries [c] := by
  rcases c with ⟨symbol, status, _ | _⟩ | ⟨e, _ | _⟩ <;> simp [Stores.apply, addedEntries]

/-- The status table after a call depends on the one before it only. -/
theorem backfillStatus_apply {st st' : Stores} (h : st.backfillStatus = st'.backfillStatus)
    (c : Call) : (st.apply c).backfillStatus = (st'.apply c).backfillStatus := by
  rcases c with ⟨symbol, status, _ | _⟩ | ⟨e, _ | _⟩ <;> simp [Stores.apply, h]

theorem published_message (m : Option Json) (ok : Bool) :
    published [.message m ok] =
      (if ok then (messageKline m).map Kline.entry else none).toList := by
  unfold published
  cases hk : messageKline m <;> cases ok <;> simp [hk]

theorem consumeMessage_eq (st : Stores) (m : Option Json) (ok : Bool) :
    consumeMessage st m ok =
      { st with klineStream := st.klineStream ++ published [.message m ok] } := by
  rw [published_message]
  unfold consumeMessage
  cases messageKline m <;> cases ok <;> simp [Stores.apply]

/-! ## Both -/

/-- The lives have made their calls, and `live` was added in between. -/
structure Inv (lives : List Life) (live : List KlineEntry) (w : World) : Prop where
  status : w.stores.backfillStatus = (stores (lives.flatMap Life.calls)).backfillStatus
  stream : Interleave (stores (lives.flatMap Life.calls)).klineStream live w.stores.klineStream
  goroutine : ∀ calls, w.goroutine = some calls → ∃ before l, lives = before ++ [l] ∧
    (backfillHistorical l.pg l.outcomes).drop l.made = calls

variable {lives : List Life} {live : List KlineEntry} {w w' : World}

theorem Inv.start : Inv [] [] World.start := ⟨rfl, .nil, by rintro calls ⟨⟩⟩

theorem Inv.backfill {c : Call} {calls : List Call} (h : Inv lives live w)
    (hw : w.goroutine = some (c :: calls)) :
    ∃ lives', lives'.map Life.start = lives.map Life.start ∧
      Inv lives' live ⟨w.stores.apply c, some calls⟩ := by
  obtain ⟨before, l, rfl, hdrop⟩ := h.goroutine _ hw
  have hnext : (backfillHistorical l.pg l.outcomes)[l.made]? = some c := by
    have hhead := congrArg (·[0]?) hdrop
    simpa using hhead
  have hcalls : (before ++ [{ l with made := l.made + 1 }]).flatMap Life.calls =
      (before ++ [l]).flatMap Life.calls ++ [c] := by
    rw [List.flatMap_append, List.flatMap_append, List.append_assoc]
    refine congrArg (before.flatMap Life.calls ++ ·) ?_
    simp only [List.flatMap_cons, List.flatMap_nil, List.append_nil, Life.calls]
    rw [List.take_add_one, hnext]
    rfl
  refine ⟨before ++ [{ l with made := l.made + 1 }], by simp [Life.start], ?_, ?_, ?_⟩
  · rw [hcalls, stores_concat]
    exact backfillStatus_apply h.status c
  · rw [hcalls, stores_concat, klineStream_apply, klineStream_apply]
    exact h.stream.append_left _
  · rintro _ ⟨⟩
    refine ⟨before, _, rfl, ?_⟩
    show (backfillHistorical l.pg l.outcomes).drop (l.made + 1) = calls
    rw [← List.drop_drop, hdrop]
    rfl

theorem Inv.step {e : Event} (h : Inv lives live w) (hstep : step w e = some w') :
    ∃ lives', lives'.map Life.start = lives.map Life.start ++ starts [e] ∧
      Inv lives' (live ++ published [e]) w' := by
  cases steps_of_step hstep with
  | start pg outcomes =>
    refine ⟨lives ++ [⟨pg, outcomes, 0⟩], by simp [starts, Life.start], ?_, ?_, ?_⟩
    · simpa [Life.calls] using h.status
    · simpa [Life.calls, published] using h.stream
    · rintro _ ⟨⟩
      exact ⟨lives, _, rfl, rfl⟩
  | backfill c calls hw => simpa [starts, published] using h.backfill hw
  | message m ok calls hw =>
    refine ⟨lives, by simp [starts], ?_⟩
    -- the read loop takes no step of the goroutine, so its calls stay as they are
    rw [consumeMessage_eq]
    refine ⟨h.status, h.stream.append_right _, ?_⟩
    rintro _ ⟨⟩
    exact h.goroutine calls hw
  | stop =>
    refine ⟨lives, by simp [starts], ?_⟩
    have hinv : Inv lives live { w with goroutine := none } :=
      ⟨h.status, h.stream, by rintro calls ⟨⟩⟩
    simpa [published] using hinv

/-- Where a run leads from a state of the invariant. -/
theorem Inv.run {events : List Event} (h : Inv lives live w)
    (hrun : Runs.run Producers.step w events = some w') :
    ∃ lives', lives'.map Life.start = lives.map Life.start ++ starts events ∧
      Inv lives' (live ++ published events) w' := by
  induction events generalizing lives live w with
  | nil =>
    obtain rfl := Option.some.inj hrun
    exact ⟨lives, by simp [starts], by simpa [published] using h⟩
  | cons e events ih =>
    obtain ⟨s, hs, hrun'⟩ := Option.bind_eq_some_iff.mp hrun
    obtain ⟨lives₁, hstarts, hinv⟩ := h.step hs
    obtain ⟨lives₂, hstarts', hinv'⟩ := ih hinv hrun'
    have hpublished : published (e :: events) = published [e] ++ published events :=
      List.filterMap_append (l := [e])
    have hstarted : starts (e :: events) = starts [e] ++ starts events :=
      List.filterMap_append (l := [e])
    refine ⟨lives₂, ?_, ?_⟩
    · rw [hstarts', hstarts, hstarted, List.append_assoc]
    · rwa [hpublished, ← List.append_assoc]

theorem stream_step {e : Event} (h : Producers.step w e = some w') :
    ∃ k : Option KlineEntry, w'.stores.klineStream = w.stores.klineStream ++ k.toList := by
  cases steps_of_step h with
  | start => exact ⟨none, (List.append_nil _).symm⟩
  | backfill c calls =>
    rw [klineStream_apply]
    rcases c with ⟨symbol, status, ok⟩ | ⟨e, _ | _⟩
    · exact ⟨none, rfl⟩
    · exact ⟨none, rfl⟩
    · exact ⟨e, rfl⟩
  | message m ok =>
    rw [consumeMessage_eq, published_message]
    exact ⟨_, rfl⟩
  | stop => exact ⟨none, (List.append_nil _).symm⟩

/-- **Neither producer disturbs the other.** In every run of the ingestion there is a life for each
start, such that the status table is what the backfills of the lives alone leave, and the stream is
an interleaving of what they alone add and of the closed candles of the messages. -/
theorem stores_interleave {events : List Event}
    (hrun : Runs.run step World.start events = some w) :
    ∃ lives : List Life, lives.map Life.start = starts events ∧
      w.stores.backfillStatus = (storesAfter (lives.flatMap Life.attempts)).backfillStatus ∧
      Interleave (storesAfter (lives.flatMap Life.attempts)).klineStream (published events)
        w.stores.klineStream := by
  obtain ⟨lives, hstarts, hinv⟩ := Inv.start.run hrun
  refine ⟨lives, hstarts, ?_⟩
  rw [storesAfter_attempts]
  exact ⟨hinv.status, hinv.stream⟩

/-- The candle of the minute 1. -/
def firstRow : List Json :=
  [.num (.ofInt 60000), .str "1", .str "1", .str "1", .str "1", .str "1", .num (.ofInt 119999),
    .str "1", .num (.ofInt 4), .str "1", .str "1", .str "0"]

/-- Each symbol has this row. -/
def rowEach : Symbol → Outcomes := fun _ =>
  { inProgressOk := true
    response := some (some (.arr [.arr firstRow]))
    row := fun _ => .added
    statusOk := true }

/-- The candle of the minute 2. -/
def closedMessage : Json :=
  .obj [("stream", .str "btcusdt@kline_1m"), ("data", .obj [("e", .str "kline"),
    ("k", .obj [("t", .num (.ofInt 120000)), ("s", .str "BTCUSDT"), ("o", .str "1"),
      ("c", .str "1"), ("h", .str "1"), ("l", .str "1"), ("v", .str "1"), ("x", .bool true)])])]

/-- The service is stopped after the first symbol and started again. -/
def twoStarts : List Event :=
  [.start true rowEach, .backfill, .message (some closedMessage) true, .backfill, .stop,
    .start true rowEach, .backfill, .message none true, .backfill]

theorem stores_interleave_twoStarts : ∃ w : World,
    Runs.run step World.start twoStarts = some w ∧ w.stores.klineStream.length = 3 ∧
    ∃ lives : List Life, lives.map Life.start = starts twoStarts ∧
      w.stores.backfillStatus = (storesAfter (lives.flatMap Life.attempts)).backfillStatus ∧
      Interleave (storesAfter (lives.flatMap Life.attempts)).klineStream (published twoStarts)
        w.stores.klineStream := by
  have hlength : (Runs.run step World.start twoStarts).map
      (fun w => w.stores.klineStream.length) = some 3 := by decide
  obtain ⟨w, hrun, hlength⟩ := Option.map_eq_some_iff.mp hlength
  exact ⟨w, hrun, hlength, stores_interleave hrun⟩

end PortfolioEngine.Ingestion.Producers
