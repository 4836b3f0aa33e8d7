import PortfolioEngine.Features.CatchUp
import PortfolioEngine.Features.Cursors

/-!
# The reader and the candles

Until the stream is first trimmed, the consume loop with its batches, its `last_id` and its decoding
refines the system of candles, crashes and restarts: an unreadable message is a crash of every life
that comes to it, and the candles are those of the entries before the first such message.

`untrimmed_refines`: so the tables are those of a state of that system.
-/

namespace PortfolioEngine.Features.Reader

open Ingestion Streams Tables
open Restart (featuresOf)

variable {α K : Type*} [Field K] [LinearOrder K]

/-- The candles of the entries up to the first one that cannot be read. -/
def readable (read : α → Option (PriceRow K)) : List (Entry α) → List (PriceRow K)
  | [] => []
  | x :: xs =>
    match read x.values with
    | none => []
    | some candle => candle :: readable read xs

section Readable

variable {read : α → Option (PriceRow K)}

omit [Field K] [LinearOrder K] in
theorem readable_cons_of_none {x : Entry α} (h : read x.values = none) (xs : List (Entry α)) :
    readable read (x :: xs) = [] := by
  rw [readable, h]

omit [Field K] [LinearOrder K] in
theorem readable_cons_of_some {x : Entry α} {candle : PriceRow K} (h : read x.values = some candle)
    (xs : List (Entry α)) : readable read (x :: xs) = candle :: readable read xs := by
  rw [readable, h]

omit [Field K] [LinearOrder K] in
theorem readable_append {xs : List (Entry α)} {cs : List (PriceRow K)}
    (h : xs.map (fun e => read e.values) = cs.map some) (ys : List (Entry α)) :
    readable read (xs ++ ys) = cs ++ readable read ys := by
  induction xs generalizing cs with
  | nil =>
    obtain rfl := List.map_eq_nil_iff.mp h.symm
    rfl
  | cons x xs ih =>
    obtain ⟨c, cs, rfl, hc, hcs⟩ := List.map_eq_cons_iff.mp h.symm
    rw [List.cons_append, List.cons_append, ← ih hcs.symm, readable_cons_of_some hc.symm]

variable (read) in
omit [Field K] [LinearOrder K] in
theorem readable_concat (xs : List (Entry α)) (x : Entry α) :
    readable read (xs ++ [x]) = readable read xs ∨
      ∃ candle, readable read (xs ++ [x]) = readable read xs ++ [candle] := by
  induction xs with
  | nil =>
    cases hread : read x.values with
    | none => exact Or.inl (readable_cons_of_none hread [])
    | some candle => exact Or.inr ⟨candle, readable_cons_of_some hread []⟩
  | cons y ys ih =>
    rw [List.cons_append]
    cases hread : read y.values with
    | none =>
      rw [readable_cons_of_none hread, readable_cons_of_none hread]
      exact Or.inl rfl
    | some c =>
      rw [readable_cons_of_some hread, readable_cons_of_some hread]
      refine ih.imp (congrArg (c :: ·)) ?_
      rintro ⟨candle, hcandle⟩
      exact ⟨candle, congrArg (c :: ·) hcandle⟩

end Readable

section Refinement

variable {P : Numerics K} {read : α → Option (PriceRow K)} {w w' : World α K}
  {v : Restart.World K}

/-- A life of the reader and the life with the candles that it has handled. -/
def LifeSim (P : Numerics K) (read : α → Option (PriceRow K)) (w : World α K)
    (l : Session α K) (life : Restart.Life K) : Prop :=
  ∃ before begun rest cs, LifeInv P read w l before begun rest cs ∧
    life = ⟨cs.length, l.pending.isSome, l.buffers⟩

/-- The state of the candles that a state of the reader stands for. -/
structure Sim (P : Numerics K) (read : α → Option (PriceRow K)) (w : World α K)
    (v : Restart.World K) : Prop where
  dropped : w.dropped = 0
  stream : v.stream = readable read w.log.entries
  prices : v.prices = w.prices
  features : v.features = w.features
  life : ∀ l ∈ w.service, ∃ life ∈ v.service, LifeSim P read w l life
  down : w.service = none → v.service = none

theorem LifeInv.next {l : Session α K} {before begun rest : List (Entry α)}
    {cs : List (PriceRow K)} (h : LifeInv P read w l before begun rest cs)
    (hdropped : w.dropped = 0)
    (hne : begun ++ l.batch ≠ []) :
    readable read w.log.entries = cs ++ (l.pending.toList ++ readable read (l.batch ++ rest)) := by
  have hbefore : before = [] := by
    have hle := (h.started.resolve_left hne).1
    rw [hdropped] at hle
    exact List.eq_nil_of_length_eq_zero (Nat.le_zero.mp hle)
  rw [h.log, hbefore, List.nil_append, List.append_assoc, readable_append h.candles,
    List.append_assoc]

theorem Sim.xadd {e : Entry α} {hid : w.log.lastId < e.id} (h : Sim P read w v) :
    ∃ v', Runs.Reachable (Restart.step P) v v' ∧
      Sim P read { w with log := w.log.xadd e hid } v' := by
  have hlives : ∀ l ∈ w.service, ∃ life ∈ v.service,
      LifeSim P read { w with log := w.log.xadd e hid } l life := by
    intro l hl
    obtain ⟨life, hlife, before, begun, rest, cs, hinv, heq⟩ := h.life l hl
    have hadd : LifeInv P read { w with log := w.log.xadd e hid, dropped := w.dropped + 0 } l
        before begun (rest ++ [e]) cs := hinv.xadd (Or.inr fun x hx => by cases hx)
    exact ⟨life, hlife, before, begun, rest ++ [e], cs, hadd, heq⟩
  have hlog : (w.log.xadd e hid).entries = w.log.entries ++ [e] := rfl
  rcases readable_concat read w.log.entries e with hsame | ⟨candle, hcandle⟩
  · refine ⟨v, ⟨[], rfl⟩, h.dropped, ?_, h.prices, h.features, hlives, h.down⟩
    rw [hlog, hsame]
    exact h.stream
  · refine ⟨_, Runs.Reachable.of_step (e := .xadd candle) rfl, h.dropped, ?_, h.prices, h.features,
      hlives, h.down⟩
    rw [hlog, hcandle, ← h.stream]

theorem Sim.insertPrice {lastId : ℕ} {x : Entry α} {batch : List (Entry α)}
    {buffers : Symbol → List (PriceRow K)} {candle : PriceRow K} (h : Sim P read w v)
    (hw : w.service = some ⟨lastId, x :: batch, none, buffers⟩)
    (hread : read x.values = some candle) :
    ∃ v', Runs.Reachable (Restart.step P) v v' ∧
      Sim P read { w with
        prices := insertNew PriceRow.key candle w.prices
        service := some ⟨x.id, batch, some candle, buffers⟩ } v' := by
  obtain ⟨life, hv, before, begun, rest, cs, hinv, rfl⟩ := h.life _ hw
  have hv : v.service = some _ := hv
  have hnext := hinv.next h.dropped (by simp)
  rw [← h.stream] at hnext
  have hcandle : v.stream[cs.length]? = some candle := by
    rw [hnext, List.getElem?_append_right le_rfl, Nat.sub_self, List.cons_append,
      readable_cons_of_some hread]
    rfl
  have hstep : Restart.step P v .insertPrice = some { v with
      prices := insertNew PriceRow.key candle v.prices
      service := some ⟨cs.length, true, buffers⟩ } := by
    simp only [Restart.step, hv, Option.isSome_none, hcandle, Option.map_some]
  refine ⟨_, .of_step hstep, h.dropped, h.stream, ?_, h.features, ?_, by rintro ⟨⟩⟩
  · dsimp only
    rw [h.prices]
  · rintro l ⟨⟩
    exact ⟨_, rfl, before, begun ++ [x], rest, cs, hinv.insertPrice hread, rfl⟩

theorem Sim.insertFeatures {lastId : ℕ} {batch : List (Entry α)}
    {buffers : Symbol → List (PriceRow K)} {candle : PriceRow K} (h : Sim P read w v)
    (hw : w.service = some ⟨lastId, batch, some candle, buffers⟩) :
    ∃ v', Runs.Reachable (Restart.step P) v v' ∧
      Sim P read { w with
        features := insertSome FeatureRow.key w.features
          (featuresOf P candle (Recent.push bufferSize (buffers candle.symbol) candle))
        service := some ⟨lastId, batch, none, Function.update buffers candle.symbol
          (Recent.push bufferSize (buffers candle.symbol) candle)⟩ } v' := by
  obtain ⟨life, hv, before, begun, rest, cs, hinv, rfl⟩ := h.life _ hw
  have hv : v.service = some _ := hv
  have hne : begun ++ batch ≠ [] := by
    rintro hnil
    have hcandles := hinv.candles
    rw [(List.append_eq_nil_iff.mp hnil).1] at hcandles
    simp at hcandles
  have hnext := hinv.next h.dropped hne
  rw [← h.stream] at hnext
  have hcandle : v.stream[cs.length]? = some candle := by
    rw [hnext, List.getElem?_append_right le_rfl, Nat.sub_self]
    rfl
  have hbuffers : buffers = (consume P cs).buffers := hinv.buffers
  have hbuf : Recent.push bufferSize (buffers candle.symbol) candle = buffer cs candle := by
    rw [hbuffers, push_consume]
  rw [hbuf]
  have hstep : Restart.step P v .insertFeatures = some { v with
      features := insertSome FeatureRow.key v.features (featuresOf P candle (buffer cs candle))
      service := some ⟨cs.length + 1, false,
        Function.update buffers candle.symbol (buffer cs candle)⟩ } := by
    simp only [Restart.step, hv, Option.isSome_some, hcandle, Option.map_some, hbuf]
  refine ⟨_, .of_step hstep, h.dropped, h.stream, h.prices, ?_, ?_, by rintro ⟨⟩⟩
  · dsimp only
    rw [h.features]
  · rintro l ⟨⟩
    refine ⟨_, rfl, before, begun, rest, cs ++ [candle], hinv.insertFeatures, ?_⟩
    rw [List.length_append]
    rfl

/-- An event of the reader is an event of the candles, or none. -/
theorem Sim.step {e : Event α} (h : Sim P read w v) (hfull : e.Untrimmed)
    (hstep : step P read w e = some w') :
    ∃ v', Runs.Reachable (Restart.step P) v v' ∧ Sim P read w' v' := by
  cases steps_of_step hstep with
  | xadd e evicted =>
    obtain rfl : evicted = 0 := hfull
    exact h.xadd
  | start hw =>
    have hstart : Restart.step P v .start = some { v with
        service := some ⟨0, false, fun _ => []⟩ } := by
      simp only [Restart.step, h.down hw]
    refine ⟨_, .of_step hstart, h.dropped, h.stream, h.prices, h.features, ?_, by rintro ⟨⟩⟩
    rintro l ⟨⟩
    refine ⟨_, rfl, [], [], w.log.entries, [], ⟨rfl, rfl, Or.inl rfl, rfl, rfl, ?_, ?_⟩, rfl⟩
    · rintro c ⟨⟩
    · exact fun es c hpre => absurd hpre Recent.not_concat_prefix_nil
  | xread lastId buffers messages hw hmessages hne =>
    obtain ⟨life, hv, before, begun, rest, cs, hinv, heq⟩ := h.life _ hw
    obtain ⟨before', rest', hinv'⟩ := hinv.xread hmessages hne
    -- a read is a stuttering step: the candle model takes the entries one by one
    refine ⟨v, ⟨[], rfl⟩, h.dropped, h.stream, h.prices, h.features, ?_, by rintro ⟨⟩⟩
    rintro l ⟨⟩
    exact ⟨life, hv, before', begun, rest', cs, hinv', heq⟩
  | unreadable =>
    -- an entry that cannot be read is a crash of the candle model
    exact ⟨_, .of_step (e := .crash) rfl, h.dropped, h.stream, h.prices, h.features,
      by rintro l ⟨⟩, fun _ => rfl⟩
  | insertPrice lastId x batch candle buffers hw hread => exact h.insertPrice hw hread
  | insertFeatures lastId batch candle buffers hw => exact h.insertFeatures hw
  | crash =>
    exact ⟨_, .of_step (e := .crash) rfl, h.dropped, h.stream, h.prices, h.features,
      by rintro l ⟨⟩, fun _ => rfl⟩

theorem Sim.start : Sim P read (World.start : World α K) (Restart.World.start [] [] []) :=
  ⟨rfl, rfl, rfl, rfl, by rintro l ⟨⟩, fun _ => rfl⟩

/-- **The reader refines the candles.** In every run in which nothing is evicted, with any batches,
unreadable messages, crashes and restarts, the tables are those of a state that the system of
candles reaches on the candles of the entries before the first unreadable one; so they are those of
uninterrupted runs over two beginnings of these candles, the one of the features equal to the one
of the prices or one candle shorter. -/
theorem untrimmed_refines {events : List (Event α)}
    (h : Runs.run (Reader.step P read) World.start events = some w)
    (hfull : ∀ e ∈ events, e.Untrimmed) :
    ∃ v, Runs.Reachable (Restart.step P) (Restart.World.start [] [] []) v ∧
      v.stream = readable read w.log.entries ∧ v.prices = w.prices ∧ v.features = w.features ∧
      ∃ k j, Restart.AtCursors P v k j := by
  obtain ⟨v, ⟨es, hrun⟩, hsim⟩ := Runs.run_invariant_along (P := fun _ e => Event.Untrimmed e)
    (I := fun w => ∃ v, Runs.Reachable (Restart.step P) (Restart.World.start [] [] []) v ∧
      Sim P read w v)
    (fun s e t ⟨v, hv, hs⟩ hu hstep =>
      let ⟨v', hv', hs'⟩ := hs.step hu hstep
      ⟨v', hv.trans hv', hs'⟩)
    ⟨_, ⟨[], rfl⟩, Sim.start⟩ (Runs.along_of_forall fun e he _ => hfull e he) h
  obtain ⟨k, j, hcursors, -⟩ := (Restart.CursorInv.start P []).run hrun
  exact ⟨v, ⟨es, hrun⟩, hsim.stream, hsim.prices, hsim.features, k, j, hcursors.atCursors⟩

/-- 62 klines. -/
theorem untrimmed_refines_steady : ∃ (w : World Kline ℝ) (v : Restart.World ℝ),
    w.retained.entries = entriesFrom 0 (klines 62) ∧
    Runs.Reachable (Restart.step realNumerics) (Restart.World.start [] [] []) v ∧
    v.stream = readable (readKline unitBuiltins) w.log.entries ∧ v.prices = w.prices ∧
    v.features = w.features ∧ ∃ k j, Restart.AtCursors realNumerics v k j := by
  obtain ⟨events, w, l, hrun, hfull, -, -, hleft⟩ :=
    exists_caught_up realNumerics (readable_klines (n := 62))
  obtain ⟨v, hv⟩ := untrimmed_refines hrun hfull
  exact ⟨w, v, hleft, hv⟩

end Refinement

end PortfolioEngine.Features.Reader
