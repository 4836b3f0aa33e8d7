import PortfolioEngine.Features.CatchUp
import PortfolioEngine.Ingestion.Producers

/-!
# From the messages to the prices

The ingestion and the feature service, with `kline_stream` between them: what the one adds, the
other one reads. The services run side by side, and each can be killed at any point.

`fed`: where the feature service waits, `prices` has a row for every kline that the ingestion has
published and the stream has not evicted, one for each symbol and time, and no other row.
-/

namespace PortfolioEngine.Pipeline.Feed

open Ingestion Features Streams
open Ingestion.Producers (Life starts published)
open Features.Reader (readRow)

variable {K : Type} [Field K] [LinearOrder K]

/-! ## The system -/

structure World (K : Type) where
  ingestion : Producers.World
  features : Reader.World KlineEntry K

inductive Event where
  /-- Of the ingestion; if it adds an entry, its id, and how many others the `XADD` evicts. -/
  | ingestion (e : Producers.Event) (id evicted : ℕ)
  | features (e : Reader.Event KlineEntry)

/-- One event. -/
def step (P : Numerics K) (B : Builtins K) (w : World K) : Event → Option (World K)
  | .ingestion e id evicted =>
    (Producers.step w.ingestion e).bind fun ingestion =>
      match ingestion.stores.klineStream.drop w.ingestion.stores.klineStream.length with
      | [] => some { w with ingestion }
      | k :: _ =>
        (Reader.step P (readRow B) w.features (.xadd ⟨id, k⟩ evicted)).map fun features =>
          ⟨ingestion, features⟩
  -- Only the ingestion adds entries.
  | .features (.xadd _ _) => none
  | .features e =>
    (Reader.step P (readRow B) w.features e).map fun features => { w with features }

def World.start : World K := ⟨.start, .start⟩

/-- No entry is evicted under a life of the feature service that is still to receive it. -/
def Keeps (w : World K) : Event → Prop
  | .ingestion _ id evicted => ∀ k, Reader.KeepsUp w.features (.xadd ⟨id, k⟩ evicted)
  | .features _ => True

/-- The events of the ingestion. -/
def producing (events : List Event) : List Producers.Event :=
  events.filterMap fun
    | .ingestion e _ _ => some e
    | .features _ => none

/-! ## What the two have in common -/

/-- The log of the reader is what the ingestion has added. -/
structure Inv (P : Numerics K) (B : Builtins K) (w : World K) : Prop where
  features : Reader.Inv P (readRow B) w.features
  nodup : (w.features.prices.map PriceRow.key).Nodup
  stream : w.features.log.entries.map Entry.values = w.ingestion.stores.klineStream

variable {P : Numerics K} {B : Builtins K} {w w' : World K}

theorem Inv.start : Inv P B World.start := ⟨.start, List.nodup_nil, rfl⟩

theorem step_features {e : Reader.Event KlineEntry} (he : e.Own) : step P B w (.features e) =
    (Reader.step P (readRow B) w.features e).map fun features => { w with features } := by
  cases e with
  | xadd e evicted => cases he
  | start => rfl
  | xread => rfl
  | insertPrice => rfl
  | insertFeatures => rfl
  | crash => rfl

theorem own_of_step {e : Reader.Event KlineEntry} (h : step P B w (.features e) = some w') :
    e.Own := by
  cases e with
  | xadd e evicted => cases h
  | start => trivial
  | xread => trivial
  | insertPrice => trivial
  | insertFeatures => trivial
  | crash => trivial

theorem log_xadd {α : Type} {read : α → Option (PriceRow K)} {v v' : Reader.World α K}
    {e : Entry α} {evicted : ℕ} (h : Reader.step P read v (.xadd e evicted) = some v') :
    v'.log.entries = v.log.entries ++ [e] := by
  cases Reader.steps_of_step h
  rfl

theorem nodup_step {α : Type} {read : α → Option (PriceRow K)} {v v' : Reader.World α K}
    {e : Reader.Event α} (hnodup : (v.prices.map PriceRow.key).Nodup)
    (h : Reader.step P read v e = some v') : (v'.prices.map PriceRow.key).Nodup := by
  cases Reader.steps_of_step h with
  | xadd => exact hnodup
  | start => exact hnodup
  | xread => exact hnodup
  | unreadable => exact hnodup
  | insertPrice => exact Tables.nodup_insertNew hnodup
  | insertFeatures => exact hnodup
  | crash => exact hnodup

theorem Inv.step {e : Event} (h : Inv P B w) (hkeeps : Keeps w e)
    (hstep : step P B w e = some w') : Inv P B w' := by
  cases e with
  | ingestion e id evicted =>
    obtain ⟨ingestion, hmoves, hadds⟩ := Option.bind_eq_some_iff.mp hstep
    obtain ⟨k, hk⟩ := Producers.stream_step hmoves
    rw [hk, List.drop_left] at hadds
    cases k with
    | none =>
      cases hadds
      exact ⟨h.features, h.nodup, h.stream.trans (hk.trans (List.append_nil _)).symm⟩
    | some k =>
      obtain ⟨features, hxadd, rfl⟩ := Option.map_eq_some_iff.mp hadds
      refine ⟨h.features.step (hkeeps k) hxadd, nodup_step h.nodup hxadd, ?_⟩
      dsimp only
      rw [log_xadd hxadd, List.map_append, h.stream, hk]
      rfl
  | features e =>
    have hown := own_of_step hstep
    rw [step_features hown] at hstep
    obtain ⟨features, hmoves, rfl⟩ := Option.map_eq_some_iff.mp hstep
    have hlog := (Reader.step_own hown hmoves).1
    refine ⟨h.features.step (hown.untrimmed.keepsUp _) hmoves, nodup_step h.nodup hmoves, ?_⟩
    dsimp only
    rw [hlog]
    exact h.stream

theorem Inv.of_run {events : List Event}
    (hrun : Runs.run (Feed.step P B) World.start events = some w)
    (hkeeps : Runs.Along (Feed.step P B) Keeps World.start events) : Inv P B w :=
  Runs.run_invariant_along (fun _ _ _ hs hk hstep => hs.step hk hstep) Inv.start hkeeps hrun

/-- The ingestion does not notice the feature service. -/
theorem ingestion_step {e : Event} (h : step P B w e = some w') :
    Runs.run Producers.step w.ingestion (producing [e]) = some w'.ingestion := by
  cases e with
  | ingestion e id evicted =>
    obtain ⟨ingestion, hmoves, hadds⟩ := Option.bind_eq_some_iff.mp h
    have hsame : w'.ingestion = ingestion := by
      split at hadds
      · cases hadds
        rfl
      · obtain ⟨features, -, rfl⟩ := Option.map_eq_some_iff.mp hadds
        rfl
    exact Option.bind_eq_some_iff.mpr ⟨ingestion, hmoves, congrArg some hsame.symm⟩
  | features e =>
    rw [step_features (own_of_step h)] at h
    obtain ⟨features, -, rfl⟩ := Option.map_eq_some_iff.mp h
    rfl

theorem ingestion_run {events : List Event} (h : Runs.run (step P B) w events = some w') :
    Runs.run Producers.step w.ingestion (producing events) = some w'.ingestion := by
  induction events generalizing w with
  | nil => exact congrArg _ (congrArg World.ingestion (Option.some.inj h))
  | cons e events ih =>
    obtain ⟨s, hs, h'⟩ := Option.bind_eq_some_iff.mp h
    have hsplit : producing (e :: events) = producing [e] ++ producing events :=
      List.filterMap_append (l := [e])
    rw [hsplit, Runs.run_append, ingestion_step hs]
    exact ih h'

/-! ## The prices -/

/-- The stream has lost the entry, or an equal one. -/
def Evicted (w : World K) (e : KlineEntry) : Prop :=
  e ∈ (w.features.log.entries.take w.features.dropped).map Entry.values

theorem Inv.sound (h : Inv P B w) {p : PriceRow K} (hp : p ∈ w.features.prices) :
    ∃ e ∈ w.ingestion.stores.klineStream, readRow B e = some p := by
  obtain ⟨x, hx, hread⟩ := h.features.prices p hp
  exact ⟨x.values, h.stream ▸ List.mem_map_of_mem hx, hread⟩

/-- What is left of the stream where the feature service waits has its prices. -/
theorem Inv.complete (h : Inv P B w) {l : Reader.Session KlineEntry K}
    (hl : w.features.service = some l) (hwaits : l.Waits w.features) {e : KlineEntry}
    (he : e ∈ w.ingestion.stores.klineStream) (hleft : ¬ Evicted w e) :
    ∃ candle, readRow B e = some candle ∧ candle.key ∈ w.features.prices.map PriceRow.key := by
  rw [← h.stream] at he
  obtain ⟨x, hx, rfl⟩ := List.mem_map.mp he
  have hretained : x ∈ w.features.retained.entries := by
    rw [← List.take_append_drop w.features.dropped w.features.log.entries] at hx
    exact (List.mem_append.mp hx).resolve_left fun hx => hleft (List.mem_map_of_mem hx)
  obtain ⟨before, rest, hsplit⟩ := List.append_of_mem hretained
  obtain ⟨candle, hread, hprice, -⟩ := h.features.handled hl hwaits hsplit
  exact ⟨candle, hread, hprice⟩

/-- An entry that a backfill or a message has published. -/
def Published (lives : List Life) (events : List Event) (e : KlineEntry) : Prop :=
  e ∈ (storesAfter (lives.flatMap Life.attempts)).klineStream ∨ e ∈ published (producing events)

/-- The prices are those of the published entries. -/
structure Fed (B : Builtins K) (lives : List Life) (events : List Event) (w : World K) : Prop where
  once : (w.features.prices.map PriceRow.key).Nodup
  sound : ∀ p ∈ w.features.prices, ∃ e, Published lives events e ∧ readRow B e = some p
  complete : ∀ e, Published lives events e → ¬ Evicted w e →
    ∃ candle, readRow B e = some candle ∧ candle.key ∈ w.features.prices.map PriceRow.key

section First

open Features.Reader (unitBuiltins exists_restart_waits)
open Ingestion.Producers (rowEach firstRow closedMessage)

/-- The first row of the response and a message, and then both services are killed. -/
def beginning : List Event :=
  [.ingestion (.start true rowEach) 0 0, .ingestion .backfill 0 0, .ingestion .backfill 1 0,
    .ingestion (.message (some closedMessage) true) 2 0, .ingestion .stop 0 0, .features .start,
    .features .xread, .features .crash]

/-- The klines that it publishes. -/
def firstKlines : List Kline :=
  (rowKline "BTCUSDT" firstRow).toList ++ (messageKline (some closedMessage)).toList

theorem run_beginning (P : Numerics ℝ) : ∃ w : World ℝ,
    Runs.run (step P unitBuiltins) World.start beginning = some w ∧
    w.features.log.entries.map Entry.values = firstKlines.map Kline.entry ∧
    w.features.dropped = 0 :=
  ⟨_, rfl, rfl, rfl⟩

theorem keeps_beginning {e : Event} (he : e ∈ beginning) (w : World ℝ) : Keeps w e := by
  have huntrimmed : ∀ x : Entry KlineEntry, Reader.KeepsUp w.features (.xadd x 0) := fun x =>
    Reader.Event.Untrimmed.keepsUp (e := .xadd x 0) rfl w.features
  simp only [beginning, List.mem_cons, List.not_mem_nil, or_false] at he
  rcases he with rfl | rfl | rfl | rfl | rfl | rfl | rfl | rfl
  all_goals first | trivial | exact fun k => huntrimmed _

/-- The candle of the price 1 at the instant `t`. -/
noncomputable def oneRow (t : ℤ) : PriceRow ℝ := ⟨t, "BTCUSDT", 1, 1, 1, 1, 1⟩

theorem readRow_of_ones {k : Kline} (hsymbol : k.symbol = "BTCUSDT")
    (h : ∀ f ∈ Kline.priceFields, k.price f = "1") : readRow unitBuiltins k.entry =
      some (oneRow ⌊(k.openTime : ℚ) / 1000 * 1000000⌋) := by
  simp only [Kline.forall_priceFields, Kline.price] at h
  obtain ⟨ho, hh, hl, hc, hv⟩ := h
  have hvolume : k.volume = "1" := hv
  rw [Reader.readRow_entry]
  unfold Reader.readKline handleEntry
  rw [readEntry_entry, ho, hh, hl, hc, hvolume, hsymbol]
  simp [unitBuiltins, takes, oneRow, Option.filter]

theorem read_firstKlines : ∃ k k' : Kline, firstKlines = [k, k'] ∧
    readRow unitBuiltins k.entry = some (oneRow 60000000) ∧
    readRow unitBuiltins k'.entry = some (oneRow 120000000) := by
  have hrow : ∃ k, rowKline "BTCUSDT" firstRow = some k ∧ k.openTime = 60000 ∧
      k.symbol = "BTCUSDT" ∧ ∀ f ∈ Kline.priceFields, k.price f = "1" := by
    unfold rowKline
    rw [dif_pos (by decide)]
    exact ⟨_, rfl, by decide, rfl, by decide⟩
  have hmessage : ∃ k, messageKline (some closedMessage) = some k ∧ k.openTime = 120000 ∧
      k.symbol = "BTCUSDT" ∧ ∀ f ∈ Kline.priceFields, k.price f = "1" := by
    simp [messageKline, unmarshalFrame, closedMessage, GoJson.unmarshalStruct, GoJson.fieldFor,
      WSFrame.fields, WSFrame.set, KlineEvent.fields, KlineEvent.set, Kline.fields, Kline.set,
      GoJson.unmarshal, GoJson.string?, GoJson.bool?, Kline.priceFields, Kline.price]
    decide
  obtain ⟨k, hk, htime, hsymbol, hones⟩ := hrow
  obtain ⟨k', hk', htime', hsymbol', hones'⟩ := hmessage
  refine ⟨k, k', by rw [firstKlines, hk, hk']; rfl, ?_, ?_⟩
  · rw [readRow_of_ones hsymbol hones, htime]
    norm_num
  · rw [readRow_of_ones hsymbol' hones', htime']
    norm_num

theorem run_features {own : List (Reader.Event KlineEntry)} (hown : ∀ e ∈ own, e.Own)
    (w : World K) : Runs.run (step P B) w (own.map .features) =
      (Runs.run (Reader.step P (readRow B)) w.features own).map fun features =>
        { w with features } := by
  induction own generalizing w with
  | nil => rfl
  | cons e own ih =>
    obtain ⟨he, hown⟩ := List.forall_mem_cons.mp hown
    rw [List.map_cons, Runs.run, Runs.run, step_features he]
    cases Reader.step P (readRow B) w.features e with
    | none => rfl
    | some v => exact ih hown { w with features := v }

/-- The feature service is started again and comes to wait. -/
theorem exists_waiting : ∃ (events : List Event) (w : World ℝ) (l : Reader.Session KlineEntry ℝ),
    Runs.run (step realNumerics unitBuiltins) World.start events = some w ∧
    Runs.Along (step realNumerics unitBuiltins) Keeps World.start events ∧
    w.features.service = some l ∧ l.Waits w.features ∧ w.features.dropped = 0 ∧
    w.features.log.entries.map Entry.values = firstKlines.map Kline.entry := by
  obtain ⟨w, hrun, hlog, hdropped⟩ := run_beginning realNumerics
  have hkeeps : Runs.Along (step realNumerics unitBuiltins) Keeps World.start beginning :=
    Runs.along_of_forall fun e he w => keeps_beginning he w
  have hleft : ∀ x ∈ w.features.retained.entries, (readRow unitBuiltins x.values).isSome := by
    intro x hx
    have hmem : x.values ∈ firstKlines.map Kline.entry :=
      hlog ▸ List.mem_map_of_mem (List.mem_of_mem_drop hx)
    obtain ⟨k, k', hklines, hread, hread'⟩ := read_firstKlines
    rw [hklines, List.map_cons, List.map_singleton, List.mem_pair] at hmem
    rcases hmem with heq | heq
    · rw [heq, hread]
      rfl
    · rw [heq, hread']
      rfl
  obtain ⟨own, v, l, hown, hrun', hl, hwaits⟩ :=
    exists_restart_waits realNumerics (readRow unitBuiltins) hleft
  obtain ⟨-, hlog', hdropped'⟩ := (Inv.of_run hrun hkeeps).features.own hown hrun'
  have hkeeps' : Runs.Along (step realNumerics unitBuiltins) Keeps w (own.map .features) := by
    refine Runs.along_of_forall fun e he s => ?_
    obtain ⟨_, -, rfl⟩ := List.mem_map.mp he
    trivial
  refine ⟨beginning ++ own.map .features, { w with features := v }, l, ?_,
    hkeeps.append hrun hkeeps', hl, hwaits, hdropped'.trans hdropped, ?_⟩
  · rw [Runs.run_append, hrun, Option.bind_some, run_features hown, hrun', Option.map_some]
  · dsimp only
    rw [hlog', hlog]

end First

end PortfolioEngine.Pipeline.Feed
