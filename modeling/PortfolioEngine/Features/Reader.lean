import PortfolioEngine.Features.History
import PortfolioEngine.Features.ParseKline
import PortfolioEngine.Features.Restart
import PortfolioEngine.Lib.Streams

/-!
# Reading the capped stream

The consume loop of `main` with what lies between it and the candles: `kline_stream` is read in
batches after `last_id`, a message is decoded when its turn comes, and each `XADD` caps the stream
at about 10000 entries, so that a restart from the id 0 finds only the entries that are left.

`LifeInv`: a life has handled entries of the log that follow each other without a hole, as long as
it keeps up with the evictions.
-/

namespace PortfolioEngine.Features.Reader

open Ingestion Recent Streams Tables
open Restart (featuresOf)

variable {α K : Type*} [Field K] [LinearOrder K]

/-! ## The system -/

/-- `MaxLen` of the `XADD`s. -/
def maxLen : ℕ := 10000

/-- `count` of the `XREAD`. -/
def batchSize : ℕ := 10

/-- A life of the service: `last_id`, the messages of the last response that it has not begun, the
candle whose price is inserted and whose features are not, and the ring buffers. -/
structure Session (α K : Type*) where
  lastId : ℕ
  batch : List (Entry α)
  pending : Option (PriceRow K)
  buffers : Symbol → List (PriceRow K)

/-- All entries ever added, how many of the first ones are evicted, the tables, and the service, if
it is up. -/
structure World (α K : Type*) where
  log : Stream α
  dropped : ℕ
  prices : List (PriceRow K)
  features : List (FeatureRow K)
  service : Option (Session α K)

/-- The stream in Redis. -/
def World.retained (w : World α K) : Stream α := w.log.drop w.dropped

inductive Event (α : Type*) where
  /-- An `XADD`, and how many of the oldest entries it evicts. -/
  | xadd (e : Entry α) (evicted : ℕ)
  | start
  | xread
  | insertPrice
  /-- The rest of a message: append, compute and insert the features. -/
  | insertFeatures
  | crash

/-- One event; `read` is the candle of a message, if `json.loads`, `_parse_kline` and `insert_price`
do not raise on it. -/
def step (P : Numerics K) (read : α → Option (PriceRow K)) (w : World α K) :
    Event α → Option (World α K)
  | .xadd e evicted =>
    if h : w.log.lastId < e.id then
      -- The cap is approximate: as many entries as it says are never evicted below it.
      if evicted = 0 ∨ maxLen ≤ w.log.entries.length + 1 - (w.dropped + evicted) then
        some { w with log := w.log.xadd e h, dropped := w.dropped + evicted }
      else none
    else none
  | .start =>
    match w.service with
    | none => some { w with service := some ⟨0, [], none, fun _ => []⟩ }
    | some _ => none
  | .xread =>
    match w.service with
    | some ⟨lastId, [], none, buffers⟩ =>
      match (w.retained.after lastId).take batchSize with
      | [] => none
      | messages => some { w with service := some ⟨lastId, messages, none, buffers⟩ }
    | _ => none
  | .insertPrice =>
    match w.service with
    | some ⟨_, x :: batch, none, buffers⟩ =>
      match read x.values with
      | none => some { w with service := none }
      | some candle =>
        some { w with
          prices := insertNew PriceRow.key candle w.prices
          service := some ⟨x.id, batch, some candle, buffers⟩ }
    | _ => none
  | .insertFeatures =>
    match w.service with
    | some ⟨lastId, batch, some candle, buffers⟩ =>
      let buf := push bufferSize (buffers candle.symbol) candle
      some { w with
        features := insertSome FeatureRow.key w.features (featuresOf P candle buf)
        service := some ⟨lastId, batch, none, Function.update buffers candle.symbol buf⟩ }
    | _ => none
  | .crash => some { w with service := none }

/-- The candle of a published kline; the symbol that is read is its own. -/
def readKline {F : Type} (B : Builtins F) (k : Kline) : Option (PriceRow F) :=
  (handleEntry B k.entry).map fun c =>
    ⟨c.time, k.symbol, c.opening, c.high, c.low, c.close, c.volume⟩

/-- The candle of an entry; the symbol of a published kline is a text. -/
def readRow {F : Type} (B : Builtins F) (e : KlineEntry) : Option (PriceRow F) :=
  (handleEntry B e).bind fun c =>
    match c.symbol with
    | .str symbol => some ⟨c.time, symbol, c.opening, c.high, c.low, c.close, c.volume⟩
    | _ => none

theorem readRow_entry {F : Type} (B : Builtins F) (k : Kline) :
    readRow B k.entry = readKline B k := by
  unfold readRow readKline
  cases hc : handleEntry B k.entry with
  | none => rfl
  | some c =>
    have hread := ((handleEntry_entry_eq_some B).mp hc).1
    rw [Option.bind_some, ((readEntry_entry_eq_some B).mp hread).1]
    rfl

/-- Nothing is added yet. -/
def World.start : World α K := ⟨.empty, 0, [], [], none⟩

/-- The id of the last message that a life has received. -/
def Session.received (l : Session α K) : ℕ := (l.batch.getLast?.map Entry.id).getD l.lastId

/-- The life blocks in its `XREAD`. -/
def Session.Waits (l : Session α K) (w : World α K) : Prop :=
  l.batch = [] ∧ l.pending = none ∧ w.retained.after l.lastId = []

/-- No entry is evicted under a life that has not received it, unless the life has not received
any. -/
def KeepsUp (w : World α K) : Event α → Prop
  | .xadd e evicted => ∀ l ∈ w.service, l.received = 0 ∨
      ∀ x ∈ ((w.log.entries ++ [e]).drop w.dropped).take evicted, x.id ≤ l.received
  | _ => True

/-- The event evicts nothing. -/
def Event.Untrimmed : Event α → Prop
  | .xadd _ evicted => evicted = 0
  | _ => True

omit [Field K] [LinearOrder K] in
theorem Event.Untrimmed.keepsUp {e : Event α} (h : e.Untrimmed) (w : World α K) : KeepsUp w e := by
  cases e with
  | xadd e evicted =>
    obtain rfl : evicted = 0 := h
    exact fun l _ => Or.inr fun x hx => by cases hx
  | start => trivial
  | xread => trivial
  | insertPrice => trivial
  | insertFeatures => trivial
  | crash => trivial

/-! ## What a step does -/

/-- From which state an event leads to which. -/
inductive Steps (P : Numerics K) (read : α → Option (PriceRow K)) (w : World α K) :
    Event α → World α K → Prop
  | xadd (e : Entry α) (evicted : ℕ) (hid : w.log.lastId < e.id)
      (capped : evicted = 0 ∨ maxLen ≤ w.log.entries.length + 1 - (w.dropped + evicted)) :
      Steps P read w (.xadd e evicted)
        { w with log := w.log.xadd e hid, dropped := w.dropped + evicted }
  | start (down : w.service = none) :
      Steps P read w .start { w with service := some ⟨0, [], none, fun _ => []⟩ }
  | xread (lastId : ℕ) (buffers : Symbol → List (PriceRow K)) (messages : List (Entry α))
      (up : w.service = some ⟨lastId, [], none, buffers⟩)
      (response : (w.retained.after lastId).take batchSize = messages) (fetched : messages ≠ []) :
      Steps P read w .xread { w with service := some ⟨lastId, messages, none, buffers⟩ }
  | unreadable (lastId : ℕ) (x : Entry α) (batch : List (Entry α))
      (buffers : Symbol → List (PriceRow K))
      (up : w.service = some ⟨lastId, x :: batch, none, buffers⟩) (raises : read x.values = none) :
      Steps P read w .insertPrice { w with service := none }
  | insertPrice (lastId : ℕ) (x : Entry α) (batch : List (Entry α)) (candle : PriceRow K)
      (buffers : Symbol → List (PriceRow K))
      (up : w.service = some ⟨lastId, x :: batch, none, buffers⟩)
      (reads : read x.values = some candle) :
      Steps P read w .insertPrice { w with
        prices := insertNew PriceRow.key candle w.prices
        service := some ⟨x.id, batch, some candle, buffers⟩ }
  | insertFeatures (lastId : ℕ) (batch : List (Entry α)) (candle : PriceRow K)
      (buffers : Symbol → List (PriceRow K))
      (up : w.service = some ⟨lastId, batch, some candle, buffers⟩) :
      Steps P read w .insertFeatures { w with
        features := insertSome FeatureRow.key w.features
          (featuresOf P candle (push bufferSize (buffers candle.symbol) candle))
        service := some ⟨lastId, batch, none, Function.update buffers candle.symbol
          (push bufferSize (buffers candle.symbol) candle)⟩ }
  | crash : Steps P read w .crash { w with service := none }

theorem steps_of_step {P : Numerics K} {read : α → Option (PriceRow K)} {w w' : World α K}
    {e : Event α} (h : step P read w e = some w') : Steps P read w e w' := by
  cases e with
  | xadd e evicted =>
    simp only [step] at h
    split_ifs at h with hid hcap
    cases h
    exact .xadd e evicted hid hcap
  | start =>
    simp only [step] at h
    split at h
    next hw =>
      cases h
      exact .start hw
    · cases h
  | xread =>
    simp only [step] at h
    split at h
    next lastId buffers hw =>
      split at h
      · cases h
      next messages hne =>
        cases h
        exact .xread lastId buffers _ hw rfl hne
    · cases h
  | insertPrice =>
    simp only [step] at h
    split at h
    next lastId x batch buffers hw =>
      split at h
      next hread =>
        cases h
        exact .unreadable lastId x batch buffers hw hread
      next candle hread =>
        cases h
        exact .insertPrice lastId x batch candle buffers hw hread
    · cases h
  | insertFeatures =>
    simp only [step] at h
    split at h
    next lastId batch candle buffers hw =>
      cases h
      exact .insertFeatures lastId batch candle buffers hw
    · cases h
  | crash =>
    cases h
    exact .crash

/-! ## The lives -/

section Invariant

variable (P : Numerics K) (read : α → Option (PriceRow K))

/-- The row is that of the candle of an entry, computed from candles of entries right before it. -/
def FromLog (log : List (Entry α)) (f : FeatureRow K) : Prop :=
  ∃ before run x rest es candle, log = before ++ run ++ x :: rest ∧
    run.map (fun e => read e.values) = es.map some ∧ read x.values = some candle ∧
    Warm es candle ∧ f = rowFor P es candle

/-- A life that has begun the entries `begun` of the log and handled the candles `cs`. -/
structure LifeInv (w : World α K) (l : Session α K) (before begun rest : List (Entry α))
    (cs : List (PriceRow K)) : Prop where
  log : w.log.entries = before ++ begun ++ l.batch ++ rest
  lastId : l.lastId = (begun.getLast?.map Entry.id).getD 0
  started : begun ++ l.batch = [] ∨
    before.length ≤ w.dropped ∧ w.dropped ≤ (before ++ begun ++ l.batch).length
  candles : begun.map (fun e => read e.values) = (cs ++ l.pending.toList).map some
  buffers : l.buffers = (consume P cs).buffers
  prices : ∀ c ∈ cs ++ l.pending.toList, c.key ∈ w.prices.map PriceRow.key
  features : ∀ es c, es ++ [c] <+: cs → Warm es c → c.key ∈ w.features.map FeatureRow.key

/-- What holds along a run in which the lives keep up. -/
structure Inv (w : World α K) : Prop where
  capped : w.dropped = 0 ∨ maxLen ≤ w.log.entries.length - w.dropped
  prices : ∀ p ∈ w.prices, ∃ x ∈ w.log.entries, read x.values = some p
  features : ∀ f ∈ w.features, FromLog P read w.log.entries f
  life : ∀ l ∈ w.service, ∃ before begun rest cs, LifeInv P read w l before begun rest cs

variable {P read} {w : World α K} {l : Session α K} {before begun rest : List (Entry α)}
  {cs : List (PriceRow K)}

theorem FromLog.concat {log : List (Entry α)} {f : FeatureRow K} (h : FromLog P read log f)
    (e : Entry α) : FromLog P read (log ++ [e]) f := by
  obtain ⟨before, run, x, rest, es, candle, rfl, h⟩ := h
  exact ⟨before, run, x, rest ++ [e], es, candle, by simp, h⟩

theorem LifeInv.received (h : LifeInv P read w l before begun rest cs) :
    l.received = ((begun ++ l.batch).getLast?.map Entry.id).getD 0 := by
  unfold Session.received
  rcases List.eq_nil_or_concat' l.batch with hb | ⟨b, x, hb⟩
  · rw [hb, List.append_nil]
    exact h.lastId
  · rw [hb, ← List.append_assoc, List.getLast?_concat, List.getLast?_concat]
    rfl

/-- What is fetched has an id up to the last one received, what is not a later one. -/
theorem LifeInv.received_split (h : LifeInv P read w l before begun rest cs)
    (hne : begun ++ l.batch ≠ []) :
    0 < l.received ∧ (∀ x ∈ before ++ begun ++ l.batch, x.id ≤ l.received) ∧
      ∀ x ∈ rest, l.received < x.id := by
  obtain ⟨fetched, y, hy⟩ := (List.eq_nil_or_concat' (begun ++ l.batch)).resolve_left hne
  have hreceived : l.received = y.id := by
    rw [h.received, hy, List.getLast?_concat]
    rfl
  have hlog : w.log.entries = before ++ fetched ++ y :: rest := by
    rw [h.log, List.append_assoc before, hy]
    simp
  have hpair := w.log.pairwise
  rw [hlog, List.pairwise_append] at hpair
  rw [hreceived]
  refine ⟨Stream.id_pos (s := w.log) ?_, fun x hx => ?_, (List.pairwise_cons.mp hpair.2.1).1⟩
  · rw [hlog]
    exact List.mem_append_right _ List.mem_cons_self
  · rw [List.append_assoc before, hy, ← List.append_assoc] at hx
    rcases List.mem_append.mp hx with hx | hx
    · exact (hpair.2.2 x hx y List.mem_cons_self).le
    · rw [List.mem_singleton.mp hx]

/-! ## The steps -/

theorem LifeInv.xadd {e : Entry α} {evicted : ℕ} {hid : w.log.lastId < e.id}
    (h : LifeInv P read w l before begun rest cs)
    (hkeeps : l.received = 0 ∨
      ∀ x ∈ ((w.log.entries ++ [e]).drop w.dropped).take evicted, x.id ≤ l.received) :
    LifeInv P read { w with log := w.log.xadd e hid, dropped := w.dropped + evicted } l before
      begun (rest ++ [e]) cs := by
  have hlog : (w.log.xadd e hid).entries = before ++ begun ++ l.batch ++ (rest ++ [e]) := by
    show w.log.entries ++ [e] = _
    rw [h.log, List.append_assoc _ rest]
  refine ⟨hlog, h.lastId, ?_, h.candles, h.buffers, h.prices, h.features⟩
  by_cases hne : begun ++ l.batch = []
  · exact Or.inl hne
  refine Or.inr ?_
  obtain ⟨hbefore, hdropped⟩ := h.started.resolve_left hne
  refine ⟨hbefore.trans (Nat.le_add_right _ _), ?_⟩
  obtain ⟨hpos, -, hrest⟩ := h.received_split hne
  by_contra hlt
  -- The first entry that the life has not received would be evicted.
  have hfirst : ∃ y ys, rest ++ [e] = y :: ys ∧ l.received < y.id := by
    cases hr : rest with
    | nil =>
      refine ⟨e, [], rfl, lt_of_le_of_lt ?_ hid⟩
      obtain ⟨b, x, hx⟩ := (List.eq_nil_or_concat' (begun ++ l.batch)).resolve_left hne
      rw [h.received, hx, List.getLast?_concat]
      refine w.log.id_le_lastId ?_
      rw [h.log, hr, List.append_nil, List.append_assoc, hx]
      simp
    | cons y ys => exact ⟨y, ys ++ [e], rfl, hrest y (hr ▸ List.mem_cons_self)⟩
  obtain ⟨y, ys, hys, hy⟩ := hfirst
  have hmem : y ∈ ((w.log.entries ++ [e]).drop w.dropped).take evicted := by
    refine List.mem_iff_getElem?.mpr ⟨(before ++ begun ++ l.batch).length - w.dropped, ?_⟩
    have hadd : w.dropped + ((before ++ begun ++ l.batch).length - w.dropped) =
        (before ++ begun ++ l.batch).length := Nat.add_sub_cancel' hdropped
    rw [List.getElem?_take_of_lt (by dsimp only at hlt; omega), List.getElem?_drop, hadd]
    show (w.log.xadd e hid).entries[_]? = _
    rw [hlog, List.getElem?_append_right le_rfl, hys, Nat.sub_self]
    rfl
  have hle := hkeeps.resolve_left hpos.ne' y hmem
  omega

/-- The life begins with the next messages, and it begins where the stream begins if these are its
first. -/
theorem LifeInv.xread {lastId : ℕ} {buffers : Symbol → List (PriceRow K)}
    {messages : List (Entry α)}
    (h : LifeInv P read w ⟨lastId, [], none, buffers⟩ before begun rest cs)
    (hmessages : (w.retained.after lastId).take batchSize = messages) (hne : messages ≠ []) :
    ∃ before' rest', LifeInv P read
      { w with service := some ⟨lastId, messages, none, buffers⟩ }
      ⟨lastId, messages, none, buffers⟩ before' begun rest' cs := by
  have hlog : w.log.entries = before ++ begun ++ rest := by
    have := h.log
    rwa [List.append_nil] at this
  -- the first read of a life is from ID 0 in the trimmed log, a later one from `last_id` on
  cases hb : begun with
  | nil =>
    have hzero : lastId = 0 := by
      have := h.lastId
      rwa [hb] at this
    have hafter : w.retained.after lastId = w.log.entries.drop w.dropped := by
      refine Stream.after_of_append (l := []) rfl (fun x hx => by cases hx) fun x hx => ?_
      rw [hzero]
      exact Stream.id_pos (s := w.retained) hx
    rw [hafter] at hmessages
    have hlt : w.dropped < w.log.entries.length := by
      by_contra hle
      rw [List.drop_of_length_le (not_lt.mp hle), List.take_nil] at hmessages
      exact hne hmessages.symm
    have hcandles := h.candles
    rw [hb] at hcandles
    -- what was trimmed before the first read is what this life never sees
    refine ⟨w.log.entries.take w.dropped, (w.log.entries.drop w.dropped).drop batchSize, ?_, ?_,
      Or.inr ⟨?_, ?_⟩, hcandles, h.buffers, h.prices, h.features⟩
    · rw [List.append_nil, List.append_assoc, ← hmessages, List.take_append_drop,
        List.take_append_drop]
    · exact hzero
    · exact List.length_take_le _ _
    · rw [List.append_nil, List.length_append, List.length_take, min_eq_left hlt.le]
      exact Nat.le_add_right _ _
  | cons b bs =>
    have hne' : begun ≠ [] := hb ▸ List.cons_ne_nil b bs
    have hfetched : begun ++ (⟨lastId, [], none, buffers⟩ : Session α K).batch ≠ [] := by
      rw [List.append_nil]
      exact hne'
    obtain ⟨hbefore, hdropped⟩ := h.started.resolve_left hfetched
    obtain ⟨-, hold, hnew⟩ := h.received_split hfetched
    dsimp only at hold hdropped
    rw [List.append_nil] at hold hdropped
    -- `last_id` is the last entry begun, so the read goes on right after it
    have hafter : w.retained.after lastId = rest := by
      refine Stream.after_of_append (l := (before ++ begun).drop w.dropped) ?_
        (fun x hx => hold x (List.mem_of_mem_drop hx)) hnew
      show w.log.entries.drop w.dropped = _
      rw [hlog, List.drop_append_of_le_length hdropped]
    rw [hafter] at hmessages
    rw [← hb]
    refine ⟨before, rest.drop batchSize, ?_, h.lastId, Or.inr ⟨hbefore, ?_⟩, h.candles, h.buffers,
      h.prices, h.features⟩
    · show w.log.entries = _
      rw [hlog, ← hmessages, List.append_assoc _ _ (rest.drop batchSize), List.take_append_drop]
    · dsimp only
      rw [List.length_append]
      exact hdropped.trans (Nat.le_add_right _ _)

theorem LifeInv.insertPrice {lastId : ℕ} {x : Entry α} {batch : List (Entry α)}
    {buffers : Symbol → List (PriceRow K)} {candle : PriceRow K}
    (h : LifeInv P read w ⟨lastId, x :: batch, none, buffers⟩ before begun rest cs)
    (hread : read x.values = some candle) :
    LifeInv P read
      { w with
        prices := insertNew PriceRow.key candle w.prices
        service := some ⟨x.id, batch, some candle, buffers⟩ }
      ⟨x.id, batch, some candle, buffers⟩ before (begun ++ [x]) rest cs := by
  have hcandles := h.candles
  simp only [Option.toList_none, List.append_nil] at hcandles
  refine ⟨?_, ?_, ?_, ?_, h.buffers, ?_, h.features⟩
  · rw [h.log]
    simp
  · rw [List.getLast?_concat]
    rfl
  · refine Or.inr ?_
    have hstarted := h.started.resolve_left (by simp)
    simp only [List.length_append, List.length_cons, List.length_nil] at hstarted ⊢
    omega
  · rw [List.map_append, hcandles, List.map_append]
    show _ ++ [read x.values] = _
    rw [hread]
    rfl
  · intro c hc
    rcases List.mem_append.mp hc with hc | hc
    · have hmem := h.prices c (List.mem_append_left _ hc)
      exact ((prefix_insertNew PriceRow.key candle _).map _).subset hmem
    · rw [List.mem_singleton.mp hc]
      exact mem_keys_insertNew PriceRow.key candle _

theorem featuresOf_eq_some {es : List (PriceRow K)} {candle : PriceRow K} {f : FeatureRow K} :
    featuresOf P candle (buffer es candle) = some f ↔ Warm es candle ∧ f = rowFor P es candle := by
  unfold featuresOf Warm
  split_ifs with hwarm
  · exact ⟨fun h => ⟨hwarm, (Option.some.inj h).symm⟩, fun h => congrArg some h.2.symm⟩
  · exact ⟨fun h => (by cases h), fun h => absurd h.1 hwarm⟩

theorem LifeInv.insertFeatures {lastId : ℕ} {batch : List (Entry α)}
    {buffers : Symbol → List (PriceRow K)} {candle : PriceRow K}
    (h : LifeInv P read w ⟨lastId, batch, some candle, buffers⟩ before begun rest cs) :
    LifeInv P read
      { w with
        features := insertSome FeatureRow.key w.features (featuresOf P candle (buffer cs candle))
        service := some ⟨lastId, batch, none,
          Function.update buffers candle.symbol (buffer cs candle)⟩ }
      ⟨lastId, batch, none, Function.update buffers candle.symbol (buffer cs candle)⟩ before begun
      rest (cs ++ [candle]) := by
  have hbuffers : buffers = (consume P cs).buffers := h.buffers
  refine ⟨h.log, h.lastId, h.started, ?_, ?_, ?_, ?_⟩
  · simpa using h.candles
  · show Function.update buffers candle.symbol (buffer cs candle) = _
    rw [consume_concat, buffers_consumeOne, push_consume, hbuffers]
  · simpa using h.prices
  · intro es c hpre hwarm
    dsimp only
    rcases concat_prefix_concat.mp hpre with hpre | ⟨rfl, rfl⟩
    · have hmem := h.features es c hpre hwarm
      have hgrows := prefix_insertSome FeatureRow.key w.features
        (featuresOf P candle (buffer cs candle))
      exact (hgrows.map FeatureRow.key).subset hmem
    · rw [featuresOf_eq_some.mpr ⟨hwarm, rfl⟩, ← rowFor_key P es c]
      exact mem_keys_insertNew FeatureRow.key (rowFor P es c) w.features

theorem LifeInv.fromLog {lastId : ℕ} {batch : List (Entry α)}
    {buffers : Symbol → List (PriceRow K)} {candle : PriceRow K}
    (h : LifeInv P read w ⟨lastId, batch, some candle, buffers⟩ before begun rest cs)
    (hwarm : Warm cs candle) : FromLog P read w.log.entries (rowFor P cs candle) := by
  have hcandles := h.candles
  simp only [Option.toList_some, List.map_append, List.map_cons, List.map_nil] at hcandles
  obtain ⟨run, xs, hbegun, hrun, hxs⟩ := List.map_eq_append_iff.mp hcandles
  obtain ⟨x, ys, rfl, hx, hys⟩ := List.map_eq_cons_iff.mp hxs
  obtain rfl := List.map_eq_nil_iff.mp hys
  refine ⟨before, run, x, batch ++ rest, cs, candle, ?_, hrun, hx, hwarm, rfl⟩
  rw [h.log, hbegun]
  simp

theorem Inv.start : Inv P read (World.start : World α K) :=
  ⟨Or.inl rfl, by rintro p ⟨⟩, by rintro f ⟨⟩, by rintro l ⟨⟩⟩

theorem Inv.step {w' : World α K} {e : Event α} (h : Inv P read w) (hkeeps : KeepsUp w e)
    (hstep : step P read w e = some w') : Inv P read w' := by
  cases steps_of_step hstep with
  | xadd e evicted hid hcap =>
    refine ⟨?_, fun p hp => ?_, fun f hf => (h.features f hf).concat e, fun l hl => ?_⟩
    · have hlen : (w.log.xadd e hid).entries.length = w.log.entries.length + 1 :=
        List.length_append
      have hold := h.capped
      dsimp only
      rw [hlen]
      omega
    · obtain ⟨x, hx, hread⟩ := h.prices p hp
      exact ⟨x, List.mem_append_left [e] hx, hread⟩
    · obtain ⟨before, begun, rest, cs, hlife⟩ := h.life l hl
      -- `KeepsUp`: the trimming stays behind the reader, or it would lose an entry here
      exact ⟨before, begun, rest ++ [e], cs, hlife.xadd (hkeeps l hl)⟩
  | start =>
    refine ⟨h.capped, h.prices, h.features, ?_⟩
    rintro l ⟨⟩
    refine ⟨[], [], w.log.entries, [], rfl, rfl, Or.inl rfl, rfl, rfl, ?_, ?_⟩
    · rintro c ⟨⟩
    · exact fun es c hpre => absurd hpre not_concat_prefix_nil
  | xread lastId buffers messages hw hmessages hne =>
    refine ⟨h.capped, h.prices, h.features, ?_⟩
    rintro l ⟨⟩
    obtain ⟨before, begun, rest, cs, hlife⟩ := h.life _ hw
    obtain ⟨before', rest', hlife'⟩ := hlife.xread hmessages hne
    exact ⟨before', begun, rest', cs, hlife'⟩
  | unreadable =>
    -- an entry that cannot be read ends the life; what it stored stays
    exact ⟨h.capped, h.prices, h.features, by rintro l ⟨⟩⟩
  | insertPrice lastId x batch candle buffers hw hread =>
    obtain ⟨before, begun, rest, cs, hlife⟩ := h.life _ hw
    refine ⟨h.capped, fun p hp => ?_, h.features, ?_⟩
    · rcases mem_insertNew.mp hp with hp | ⟨_, rfl⟩
      · exact h.prices p hp
      · refine ⟨x, ?_, hread⟩
        rw [hlife.log]
        simp
    · rintro l ⟨⟩
      exact ⟨before, begun ++ [x], rest, cs, hlife.insertPrice hread⟩
  | insertFeatures lastId batch candle buffers hw =>
    obtain ⟨before, begun, rest, cs, hlife⟩ := h.life _ hw
    have hbuffers : buffers = (consume P cs).buffers := hlife.buffers
    have hbuf : push bufferSize (buffers candle.symbol) candle = buffer cs candle := by
      rw [hbuffers, push_consume]
    rw [hbuf]
    refine ⟨h.capped, h.prices, fun f hf => ?_, ?_⟩
    · dsimp only at hf
      rcases mem_of_mem_insertSome FeatureRow.key hf with hf | hf
      · exact h.features f hf
      · obtain ⟨hwarm, rfl⟩ := featuresOf_eq_some.mp hf
        exact hlife.fromLog hwarm
    · rintro l ⟨⟩
      exact ⟨before, begun, rest, cs ++ [candle], hlife.insertFeatures⟩
  | crash => exact ⟨h.capped, h.prices, h.features, by rintro l ⟨⟩⟩

theorem Inv.of_run {es : List (Event α)}
    (h : Runs.run (Reader.step P read) World.start es = some w)
    (hkeeps : Runs.Along (Reader.step P read) KeepsUp World.start es) : Inv P read w :=
  Runs.run_invariant_along (fun _ _ _ hs hk hstep => hs.step hk hstep) Inv.start hkeeps h

end Invariant

end PortfolioEngine.Features.Reader
