import PortfolioEngine.Features.Reader

/-!
# Catching up with the capped stream

What the lives of the consume loop leave in the tables while the stream is trimmed behind them.

1. `rows_from_history`: a row of `features`, whichever life has stored it, is the row of the
   history of its symbol.
2. `caught_up`: a life that waits for entries has stored everything that is left in the stream.
3. `catches_up_iff`: the service comes to wait exactly if it can read everything that is left.
-/

namespace PortfolioEngine.Features.Reader

open Ingestion Recent Streams Tables
open Restart (featuresOf)

variable {α K : Type*} [Field K] [LinearOrder K]

/-! ## The history -/

/-- The candles of the symbol of `candle` in the entries, itself included. -/
def history (read : α → Option (PriceRow K)) (entries : List (Entry α)) (candle : PriceRow K) :
    List (PriceRow K) :=
  (entries.filterMap (fun e => read e.values) ++ [candle]).filter fun r => r.symbol = candle.symbol

section History

variable {P : Numerics K} {read : α → Option (PriceRow K)} {w : World α K}

omit [Field K] [LinearOrder K] in
theorem filterMap_of_map_some {run : List (Entry α)} {es : List (PriceRow K)}
    (hrun : run.map (fun e => read e.values) = es.map some) :
    run.filterMap (fun e => read e.values) = es := by
  have hid := congrArg (List.filterMap id) hrun
  rwa [List.filterMap_map, List.filterMap_map, Function.id_comp, Function.id_comp,
    List.filterMap_some] at hid

omit [Field K] [LinearOrder K] in
/-- The ring buffer of candles that follow each other in the log is the end of the history. -/
theorem buffer_suffix_history {before run : List (Entry α)} {es : List (PriceRow K)}
    (hrun : run.map (fun e => read e.values) = es.map some) (candle : PriceRow K) :
    buffer es candle <:+ history read (before ++ run) candle := by
  unfold buffer history
  rw [List.filterMap_append, filterMap_of_map_some hrun, List.append_assoc,
    List.filter_append (List.filterMap _ _)]
  exact (List.drop_suffix _ _).trans (List.suffix_append _ _)

/-- A row that comes from the log is the row of the end of the history, and of all of it if that is
in order. -/
theorem FromLog.of_history {log : List (Entry α)} {f : FeatureRow K} (h : FromLog P read log f) :
    ∃ before x rest candle, log = before ++ x :: rest ∧ read x.values = some candle ∧
      (∃ m, minBuffer ≤ m ∧ m ≤ bufferSize ∧ m ≤ (history read before candle).length ∧
        f = featureRow candle.time candle.symbol
          (latestFeatureRow P (bufferToDf P ((history read before candle).rtake m)))) ∧
      ((history read before candle).Pairwise (fun a b => a.time < b.time) →
        f = featureRow candle.time candle.symbol
          (latestFeatureRow P (history read before candle))) := by
  obtain ⟨before, run, x, rest, es, candle, rfl, hrun, hread, hwarm, rfl⟩ := h
  have hsuffix : buffer es candle <:+ history read (before ++ run) candle :=
    buffer_suffix_history hrun candle
  have hbuffer : buffer es candle =
      (history read (before ++ run) candle).rtake (buffer es candle).length :=
    List.suffix_iff_eq_drop.mp hsuffix
  have hcap : (buffer es candle).length ≤ bufferSize := by
    unfold buffer
    rw [length_rtake]
    exact min_le_left _ _
  refine ⟨before ++ run, x, rest, candle, rfl, hread,
    ⟨(buffer es candle).length, hwarm, hcap, hsuffix.length_le, ?_⟩, fun hsorted => ?_⟩
  · rw [← hbuffer]
    rfl
  · have hle : 61 ≤ (buffer es candle).length := le_trans (by decide) hwarm
    have htail : SameTail 61 (buffer es candle) (history read (before ++ run) candle) := by
      refine ⟨hle, hle.trans hsuffix.length_le, ?_⟩
      rw [hbuffer, rtake_rtake hle]
    unfold rowFor
    rw [bufferToDf_of_sorted (hsorted.sublist hsuffix.sublist), latestFeatureRow_congr htail]

omit [Field K] [LinearOrder K] in
/-- The history in some of the entries of a life is warm only if the life met a warm buffer. -/
theorem warm_of_history {skipped before : List (Entry α)} {es : List (PriceRow K)}
    (hes : (skipped ++ before).map (fun e => read e.values) = es.map some) {candle : PriceRow K}
    (hwarm : minBuffer ≤ (history read before candle).length) : Warm es candle := by
  have hread : (skipped ++ before).filterMap (fun e => read e.values) = es :=
    filterMap_of_map_some hes
  have hle : (history read before candle).length ≤
      ((es ++ [candle]).filter fun r => r.symbol = candle.symbol).length := by
    unfold history
    rw [← hread, List.filterMap_append, List.append_assoc]
    exact ((List.suffix_append _ _).filter _).length_le
  unfold Warm buffer
  rw [length_rtake]
  exact le_min (by decide) (hwarm.trans hle)

theorem LifeInv.retained {l : Session α K} {before begun rest : List (Entry α)}
    {cs : List (PriceRow K)} (h : LifeInv P read w l before begun rest cs) (hwaits : l.Waits w) :
    w.retained.entries <:+ begun := by
  obtain ⟨hbatch, -, hafter⟩ := hwaits
  have hlog : w.log.entries = before ++ begun ++ rest := by
    have := h.log
    rwa [hbatch, List.append_nil] at this
  have hall : ∀ x ∈ w.retained.entries, x.id ≤ l.lastId := by
    intro x hx
    by_contra hlt
    have hmem : x ∈ w.retained.after l.lastId :=
      List.mem_filter.mpr ⟨hx, decide_eq_true (not_le.mp hlt)⟩
    rw [hafter] at hmem
    cases hmem
  -- a life that has begun no entry has seen an empty log, as IDs are positive
  by_cases hne : begun = []
  · subst hne
    have hzero : l.lastId = 0 := h.lastId
    have hnil : w.retained.entries = [] := by
      refine List.eq_nil_iff_forall_not_mem.mpr fun x hx => ?_
      have hle := hall x hx
      have hpos := Stream.id_pos (s := w.retained) hx
      omega
    exact hnil ▸ List.nil_suffix
  · have hfetched : begun ++ l.batch ≠ [] := by
      rw [hbatch, List.append_nil]
      exact hne
    obtain ⟨hbefore, hdropped⟩ := h.started.resolve_left hfetched
    obtain ⟨-, -, hnew⟩ := h.received_split hfetched
    rw [hbatch, List.append_nil] at hdropped
    have hretained : w.retained.entries = begun.drop (w.dropped - before.length) ++ rest := by
      show w.log.entries.drop w.dropped = _
      rw [hlog, List.drop_append_of_le_length hdropped, List.drop_append,
        List.drop_eq_nil_of_le hbefore, List.nil_append]
    have hrest : rest = [] := by
      refine List.eq_nil_iff_forall_not_mem.mpr fun x hx => ?_
      have hle := hall x (by rw [hretained]; exact List.mem_append_right _ hx)
      have hlt := hnew x hx
      have hreceived : l.received = l.lastId := by
        unfold Session.received
        rw [hbatch]
        rfl
      omega
    rw [hretained, hrest, List.append_nil]
    exact List.drop_suffix _ _

/-- What a waiting life has done with an entry that is left. -/
theorem Inv.handled {l : Session α K} (h : Inv P read w) (hl : w.service = some l)
    (hwaits : l.Waits w) {before rest : List (Entry α)} {x : Entry α}
    (hretained : w.retained.entries = before ++ x :: rest) :
    ∃ candle, read x.values = some candle ∧ candle.key ∈ w.prices.map PriceRow.key ∧
      (minBuffer ≤ (history read before candle).length →
        candle.key ∈ w.features.map FeatureRow.key) := by
  obtain ⟨skipped, begun, _, cs, hlife⟩ := h.life l hl
  obtain ⟨fetched, hbegun⟩ := hlife.retained hwaits
  have hcandles := hlife.candles
  rw [hwaits.2.1, Option.toList_none, List.append_nil, ← hbegun, hretained,
    ← List.append_assoc, List.map_append] at hcandles
  obtain ⟨es, cs', hcs, hes, hcs'⟩ := List.map_eq_append_iff.mp hcandles.symm
  obtain ⟨candle, later, rfl, hread, -⟩ := List.map_eq_cons_iff.mp hcs'
  have hpre : es ++ [candle] <+: cs := by
    rw [hcs]
    exact ⟨later, by simp⟩
  refine ⟨candle, hread.symm, hlife.prices candle ?_, fun hwarm => ?_⟩
  · exact List.mem_append_left _ (hpre.subset (by simp))
  · exact hlife.features es candle hpre (warm_of_history hes.symm hwarm)

end History

/-! ## Catching up -/

section Progress

variable {P : Numerics K} {read : α → Option (PriceRow K)} {w : World α K}

/-- An event of the service, not of the stream. -/
def Event.Own : Event α → Prop
  | .xadd _ _ => False
  | _ => True

/-- The inserts that handle the messages. -/
def inserts (batch : List (Entry α)) : List (Event α) :=
  batch.flatMap fun _ => [.insertPrice, .insertFeatures]

theorem step_own {w' : World α K} {e : Event α} (he : e.Own) (h : step P read w e = some w') :
    w'.log = w.log ∧ w'.dropped = w.dropped := by
  cases steps_of_step h with
  | xadd => cases he
  | start => exact ⟨rfl, rfl⟩
  | xread => exact ⟨rfl, rfl⟩
  | unreadable => exact ⟨rfl, rfl⟩
  | insertPrice => exact ⟨rfl, rfl⟩
  | insertFeatures => exact ⟨rfl, rfl⟩
  | crash => exact ⟨rfl, rfl⟩

theorem Event.Own.untrimmed {e : Event α} (he : e.Own) : e.Untrimmed := by
  cases e with
  | xadd e evicted => cases he
  | start => trivial
  | xread => trivial
  | insertPrice => trivial
  | insertFeatures => trivial
  | crash => trivial

theorem Inv.own {w' : World α K} {own : List (Event α)} (h : Inv P read w)
    (hown : ∀ e ∈ own, e.Own) (hrun : Runs.run (Reader.step P read) w own = some w') :
    Inv P read w' ∧ w'.log = w.log ∧ w'.dropped = w.dropped := by
  induction own generalizing w with
  | nil =>
    obtain rfl := Option.some.inj hrun
    exact ⟨h, rfl, rfl⟩
  | cons e own ih =>
    obtain ⟨s, hs, hrun'⟩ := Option.bind_eq_some_iff.mp hrun
    obtain ⟨he, hown'⟩ := List.forall_mem_cons.mp hown
    obtain ⟨hinv, hlog', hdropped'⟩ := ih (h.step (he.untrimmed.keepsUp w) hs) hown' hrun'
    obtain ⟨hlog, hdropped⟩ := step_own he hs
    exact ⟨hinv, hlog'.trans hlog, hdropped'.trans hdropped⟩

theorem run_insert {x : Entry α} {batch : List (Entry α)} {lastId : ℕ}
    {buffers : Symbol → List (PriceRow K)} {candle : PriceRow K}
    (hw : w.service = some ⟨lastId, x :: batch, none, buffers⟩)
    (hread : read x.values = some candle) :
    Runs.run (step P read) w [.insertPrice, .insertFeatures] =
      let st := consumeOne P ⟨w.prices, w.features, buffers⟩ candle
      some { w with
        prices := st.prices
        features := st.features
        service := some ⟨x.id, batch, none, st.buffers⟩ } := by
  simp only [Runs.run, step, hw, hread, Option.bind_some, consumeOne, featuresOf]
  split_ifs <;> rfl

variable (P read) in
theorem run_inserts {batch : List (Entry α)} {lastId : ℕ} {buffers : Symbol → List (PriceRow K)}
    (hread : ∀ x ∈ batch, (read x.values).isSome)
    (hw : w.service = some ⟨lastId, batch, none, buffers⟩) :
    ∃ w' buffers', Runs.run (step P read) w (inserts batch) = some w' ∧
      w'.retained = w.retained ∧
      w'.service = some ⟨(batch.getLast?.map Entry.id).getD lastId, [], none, buffers'⟩ := by
  induction batch generalizing w lastId buffers with
  | nil => exact ⟨w, buffers, rfl, rfl, hw⟩
  | cons x batch ih =>
    obtain ⟨hx, hread⟩ := List.forall_mem_cons.mp hread
    obtain ⟨candle, hcandle⟩ := Option.isSome_iff_exists.mp hx
    have hone := run_insert (P := P) hw hcandle
    generalize consumeOne P ⟨w.prices, w.features, buffers⟩ candle = st at hone
    obtain ⟨w', buffers', hrun, hretained, hservice⟩ := ih (w := { w with
      prices := st.prices
      features := st.features
      service := some ⟨x.id, batch, none, st.buffers⟩ }) hread rfl
    refine ⟨w', buffers', ?_, hretained, ?_⟩
    · show Runs.run _ _ ([.insertPrice, .insertFeatures] ++ inserts batch) = _
      rw [Runs.run_append, hone]
      exact hrun
    · rw [hservice]
      cases batch with
      | nil => rfl
      | cons y batch => rw [List.getLast?_cons_cons, List.getLast?_eq_some_getLast (by simp)]; rfl

variable (P read) in
/-- A life that has handled what it has received comes to wait, if it can read what is left. -/
theorem exists_waits (n : ℕ) {lastId : ℕ} {buffers : Symbol → List (PriceRow K)}
    (hw : w.service = some ⟨lastId, [], none, buffers⟩)
    (hread : ∀ x ∈ w.retained.after lastId, (read x.values).isSome)
    (hn : (w.retained.after lastId).length ≤ n) :
    ∃ own w' l, (∀ e ∈ own, Event.Own e) ∧ Runs.run (step P read) w own = some w' ∧
      w'.service = some l ∧ l.Waits w' := by
  -- on the number of entries left; a turn of the loop takes at least one of them
  induction n generalizing w lastId buffers with
  | zero =>
    have hnil := List.eq_nil_of_length_eq_zero (Nat.le_zero.mp hn)
    exact ⟨[], w, _, by simp, rfl, hw, rfl, rfl, hnil⟩
  | succ n ih =>
    by_cases hnil : w.retained.after lastId = []
    · exact ⟨[], w, _, by simp, rfl, hw, rfl, rfl, hnil⟩
    have hne : (w.retained.after lastId).take batchSize ≠ [] := fun h =>
      (List.take_eq_nil_iff.mp h).elim (by decide) hnil
    obtain ⟨messages, x, hmessages⟩ := (List.eq_nil_or_concat' _).resolve_left hne
    have hafter : w.retained.after x.id = (w.retained.after lastId).drop batchSize := by
      refine Stream.after_of_after (l := messages) (i := lastId) ?_
      rw [List.append_cons, ← hmessages, List.take_append_drop]
    have hxread : step P read w .xread = some { w with
        service := some ⟨lastId, messages ++ [x], none, buffers⟩ } := by
      simp only [step, hw, hmessages]
      split
      next h => exact absurd h (by simp)
      next h => rfl
    obtain ⟨w₂, buffers₂, hrun, hretained, hservice⟩ := run_inserts P read
      (w := { w with service := some ⟨lastId, messages ++ [x], none, buffers⟩ })
      (fun y hy => hread y (List.mem_of_mem_take (hmessages ▸ hy))) rfl
    rw [List.getLast?_concat, Option.map_some, Option.getD_some] at hservice
    have hretained₂ : w₂.retained.after x.id = (w.retained.after lastId).drop batchSize := by
      rw [hretained]
      exact hafter
    obtain ⟨own, w', l, hown, hrun', hw'⟩ := ih hservice
      (fun y hy => hread y (List.mem_of_mem_drop (hretained₂ ▸ hy))) (by
        have hpos := List.length_pos_iff.mpr hnil
        rw [hretained₂, List.length_drop]
        unfold batchSize
        omega)
    refine ⟨.xread :: (inserts (messages ++ [x]) ++ own), w', l, ?_, ?_, hw'⟩
    · intro e he
      rcases List.mem_cons.mp he with rfl | he
      · trivial
      rcases List.mem_append.mp he with he | he
      · obtain ⟨_, -, he⟩ := List.mem_flatMap.mp he
        rcases List.mem_cons.mp he with rfl | he
        · trivial
        · obtain rfl := List.mem_singleton.mp he
          trivial
      · exact hown e he
    · refine Option.bind_eq_some_iff.mpr ⟨_, hxread, ?_⟩
      rw [Runs.run_append, hrun]
      exact hrun'

variable (P read) in
theorem exists_restart_waits (hread : ∀ x ∈ w.retained.entries, (read x.values).isSome) :
    ∃ own w' l, (∀ e ∈ own, Event.Own e) ∧ Runs.run (step P read) w own = some w' ∧
      w'.service = some l ∧ l.Waits w' := by
  obtain ⟨own, w', l, hown, hrun, hw'⟩ := exists_waits P read
    (w := { w with service := some ⟨0, [], none, fun _ => []⟩ }) _ rfl
    (fun x hx => hread x (List.mem_of_mem_filter hx)) le_rfl
  refine ⟨.crash :: .start :: own, w', l, ?_, hrun, hw'⟩
  exact List.forall_mem_cons.mpr ⟨trivial, List.forall_mem_cons.mpr ⟨trivial, hown⟩⟩

end Progress

/-! ## Some klines -/

section Klines

variable {P : Numerics K} {read : α → Option (PriceRow K)} {w : World α K}

/-- The values under the ids that follow. -/
def entriesFrom : ℕ → List α → List (Entry α)
  | _, [] => []
  | i, v :: vs => ⟨i + 1, v⟩ :: entriesFrom (i + 1) vs

theorem values_entriesFrom (i : ℕ) (vs : List α) : (entriesFrom i vs).map Entry.values = vs := by
  induction vs generalizing i with
  | nil => rfl
  | cons v vs ih => exact congrArg (v :: ·) (ih (i + 1))

theorem length_entriesFrom (i : ℕ) (vs : List α) : (entriesFrom i vs).length = vs.length := by
  have hlength := congrArg List.length (values_entriesFrom i vs)
  rwa [List.length_map] at hlength

theorem entriesFrom_concat (i : ℕ) (vs : List α) (v : α) :
    entriesFrom i (vs ++ [v]) = entriesFrom i vs ++ [⟨i + vs.length + 1, v⟩] := by
  induction vs generalizing i with
  | nil => rfl
  | cons u vs ih =>
    rw [List.cons_append, entriesFrom, ih, List.length_cons, Nat.add_right_comm i 1,
      Nat.add_assoc i]
    rfl

variable (P read) in
theorem run_xadds (vs : List α) (hw : w.service = none) :
    ∃ w', Runs.run (step P read) w ((entriesFrom w.log.lastId vs).map (.xadd · 0)) = some w' ∧
      w'.log.entries = w.log.entries ++ entriesFrom w.log.lastId vs ∧
      w'.log.lastId = w.log.lastId + vs.length ∧ w'.dropped = w.dropped ∧ w'.service = none := by
  induction vs generalizing w with
  | nil => exact ⟨w, rfl, (List.append_nil _).symm, rfl, rfl, hw⟩
  | cons v vs ih =>
    have hid : w.log.lastId < (⟨w.log.lastId + 1, v⟩ : Entry α).id := Nat.lt_succ_self _
    have hstep : step P read w (.xadd ⟨w.log.lastId + 1, v⟩ 0) =
        some { w with log := w.log.xadd _ hid } := by
      show dite _ _ _ = _
      rw [dif_pos hid, if_pos (Or.inl rfl)]
      rfl
    have hlast : (w.log.xadd _ hid).lastId = w.log.lastId + 1 := Stream.lastId_xadd hid
    obtain ⟨w', hrun, hlog, hlast', hdropped, hservice⟩ := ih (w := { w with
      log := w.log.xadd _ hid }) hw
    rw [hlast] at hrun hlog hlast'
    refine ⟨w', ?_, ?_, ?_, hdropped, hservice⟩
    · exact Option.bind_eq_some_iff.mpr ⟨_, hstep, hrun⟩
    · rw [hlog]
      exact List.append_assoc _ _ _
    · rw [hlast', List.length_cons]
      omega

theorem untrimmed_xadds (xs : List (Entry α)) :
    ∀ e ∈ xs.map (.xadd · 0), (e : Event α).Untrimmed := by
  intro e he
  obtain ⟨x, -, rfl⟩ := List.mem_map.mp he
  exact rfl

variable (P read w) in
theorem along_of_untrimmed {es : List (Event α)} (h : ∀ e ∈ es, e.Untrimmed) :
    Runs.Along (step P read) KeepsUp w es :=
  Runs.along_of_forall fun e he s => (h e he).keepsUp s

theorem exists_caught_up (P : Numerics K) {vs : List α} (hread : ∀ v ∈ vs, (read v).isSome) :
    ∃ events w l, Runs.run (step P read) World.start events = some w ∧
      (∀ e ∈ events, e.Untrimmed) ∧ w.service = some l ∧ l.Waits w ∧
      w.retained.entries = entriesFrom 0 vs := by
  obtain ⟨w₁, hrun₁, hlog, -, hdropped, -⟩ := run_xadds P read (w := .start) vs rfl
  have hretained : w₁.retained.entries = entriesFrom 0 vs := by
    show w₁.log.entries.drop w₁.dropped = _
    rw [hlog, hdropped]
    rfl
  have hleft : ∀ x ∈ w₁.retained.entries, (read x.values).isSome := by
    intro x hx
    refine hread x.values ?_
    rw [← values_entriesFrom 0 vs, ← hretained]
    exact List.mem_map_of_mem hx
  obtain ⟨own, w, l, hown, hrun, hl, hwaits⟩ := exists_restart_waits P read hleft
  have hxadds := untrimmed_xadds (entriesFrom 0 vs)
  have hkeeps := along_of_untrimmed P read .start hxadds
  refine ⟨(entriesFrom 0 vs).map (.xadd · 0) ++ own, w, l, ?_, ?_, hl, hwaits, ?_⟩
  · rw [Runs.run_append]
    exact Option.bind_eq_some_iff.mpr ⟨w₁, hrun₁, hrun⟩
  · exact List.forall_mem_append.mpr ⟨hxadds, fun e he => (hown e he).untrimmed⟩
  · obtain ⟨-, hlog', hdropped'⟩ := (Inv.of_run hrun₁ hkeeps).own hown hrun
    rw [← hretained]
    unfold World.retained
    rw [hlog', hdropped']

theorem exists_blocked (P : Numerics K) {bad : α} (hbad : read bad = none) :
    ∃ (events : List (Event α)) (w : World α K), (∀ e ∈ events, e.Untrimmed) ∧
      Runs.run (step P read) World.start events = some w ∧ w.log.entries = [⟨1, bad⟩] ∧
      w.dropped = 0 ∧ w.service = none := by
  refine ⟨[.xadd ⟨1, bad⟩ 0, .start, .xread, .insertPrice], ?_⟩
  simp [Runs.run, step, World.start, Stream.lastId, Stream.empty, Stream.xadd, World.retained,
    Stream.drop, Stream.after, batchSize, hbad, Event.Untrimmed]

variable (P read) in
/-- Entries are added while the service is down, and the last one evicts the first one left. -/
theorem exists_evicting (vs : List α) (v : α) (hw : w.service = none)
    (hlen : w.dropped + maxLen ≤ w.log.entries.length + vs.length) :
    ∃ (events : List (Event α)) (w' : World α K), Runs.run (step P read) w events = some w' ∧
      Runs.Along (step P read) KeepsUp w events ∧
      w'.log.entries = w.log.entries ++ entriesFrom w.log.lastId (vs ++ [v]) ∧
      w'.dropped = w.dropped + 1 := by
  obtain ⟨w₁, hrun, hlog, hlast, hdropped, hservice⟩ := run_xadds P read vs hw
  have hid : w₁.log.lastId < (⟨w.log.lastId + vs.length + 1, v⟩ : Entry α).id :=
    hlast ▸ Nat.lt_succ_self _
  have hcap : maxLen ≤ w₁.log.entries.length + 1 - (w₁.dropped + 1) := by
    rw [hlog, List.length_append, length_entriesFrom, hdropped]
    omega
  have hstep : step P read w₁ (.xadd ⟨w.log.lastId + vs.length + 1, v⟩ 1) =
      some { w₁ with log := w₁.log.xadd _ hid, dropped := w₁.dropped + 1 } := by
    show dite _ _ _ = _
    rw [dif_pos hid, if_pos (Or.inr hcap)]
  have hkeeps := along_of_untrimmed P read w (untrimmed_xadds (entriesFrom w.log.lastId vs))
  have hdown : KeepsUp w₁ (.xadd ⟨w.log.lastId + vs.length + 1, v⟩ 1) := by
    intro l hl
    rw [hservice] at hl
    cases hl
  refine ⟨(entriesFrom w.log.lastId vs).map (.xadd · 0) ++
    [.xadd ⟨w.log.lastId + vs.length + 1, v⟩ 1],
    { w₁ with log := w₁.log.xadd _ hid, dropped := w₁.dropped + 1 }, ?_, ?_, ?_, ?_⟩
  · rw [Runs.run_append, hrun, Option.bind_some]
    exact Option.bind_eq_some_iff.mpr ⟨_, hstep, rfl⟩
  · exact hkeeps.append hrun ⟨hdown, fun _ _ => trivial⟩
  · show w₁.log.entries ++ [_] = _
    rw [hlog, entriesFrom_concat, List.append_assoc]
  · exact congrArg (· + 1) hdropped

/-- A message that cannot be read ends the service, it is evicted, and the service comes to
wait. -/
theorem exists_trimmed (P : Numerics K) {bad v : α} {vs : List α} (hbad : read bad = none)
    (hread : ∀ u ∈ vs ++ [v], (read u).isSome) (hlen : maxLen ≤ 1 + vs.length) :
    ∃ events w l, Runs.run (step P read) World.start events = some w ∧
      Runs.Along (step P read) KeepsUp World.start events ∧ w.service = some l ∧ l.Waits w ∧
      w.log.entries = ⟨1, bad⟩ :: entriesFrom 1 (vs ++ [v]) ∧ w.dropped = 1 := by
  obtain ⟨es₁, w₁, huntrimmed, hrun₁, hlog₁, hdropped₁, hservice₁⟩ := exists_blocked P hbad
  have hlast₁ : w₁.log.lastId = 1 := by
    unfold Stream.lastId
    rw [hlog₁]
    rfl
  obtain ⟨es₂, w₂, hrun₂, hkeeps₂, hlog₂, hdropped₂⟩ := exists_evicting P read vs v hservice₁
    (by rw [hlog₁, hdropped₁, zero_add]; exact hlen)
  rw [hlog₁, hlast₁] at hlog₂
  -- the entry that cannot be read is trimmed, and what is left can be read
  have hretained : w₂.retained.entries = entriesFrom 1 (vs ++ [v]) := by
    show w₂.log.entries.drop w₂.dropped = _
    rw [hlog₂, hdropped₂, hdropped₁]
    rfl
  have hleft : ∀ x ∈ w₂.retained.entries, (read x.values).isSome := by
    intro x hx
    refine hread x.values ?_
    rw [← values_entriesFrom 1 (vs ++ [v]), ← hretained]
    exact List.mem_map_of_mem hx
  obtain ⟨own, w, l, hown, hrun, hl, hwaits⟩ := exists_restart_waits P read hleft
  have hrun₁₂ : Runs.run (step P read) World.start (es₁ ++ es₂) = some w₂ := by
    rw [Runs.run_append, hrun₁]
    exact hrun₂
  have hkeeps₁₂ := (along_of_untrimmed P read .start huntrimmed).append hrun₁ hkeeps₂
  have hkeeps := along_of_untrimmed P read w₂ fun e he => (hown e he).untrimmed
  obtain ⟨-, hlog, hdropped⟩ := (Inv.of_run hrun₁₂ hkeeps₁₂).own hown hrun
  refine ⟨es₁ ++ es₂ ++ own, w, l, ?_, hkeeps₁₂.append hrun₁₂ hkeeps, hl, hwaits, ?_, ?_⟩
  · rw [Runs.run_append, hrun₁₂]
    exact hrun
  · rw [hlog, hlog₂]
    rfl
  · rw [hdropped, hdropped₂, hdropped₁]

/-- Python's builtins on the texts of the klines below. -/
def unitBuiltins : Builtins ℝ where
  float s := if s = "1" then some 1 else none
  fromtimestamp t := some ⌊t * 1000000⌋
  text s := !s.toList.contains (Char.ofNat 0)
  float_empty := if_neg (by decide)
  fromtimestamp_zero := by simp

/-- The kline of the minute `i` with one price. -/
def klineAt (price : String) (i : ℕ) : Kline where
  openTime := 60000 * i
  symbol := "BTCUSDT"
  opening := price
  close := price
  high := price
  low := price
  volume := price

theorem readKline_klineAt (i : ℕ) : readKline unitBuiltins (klineAt "1" i) =
    some ⟨⌊(60000 * (i : ℚ)) / 1000 * 1000000⌋, "BTCUSDT", 1, 1, 1, 1, 1⟩ := by
  unfold readKline handleEntry
  rw [readEntry_entry]
  simp [unitBuiltins, klineAt, takes, Option.filter]

/-- An empty price, as the ingestion publishes for a field of the wrong type. -/
theorem readKline_empty (i : ℕ) : readKline unitBuiltins (klineAt "" i) = none := by
  unfold readKline handleEntry
  rw [readEntry_entry]
  simp [unitBuiltins, klineAt]

/-- The klines of `n` minutes. -/
def klines (n : ℕ) : List Kline := (List.range n).map (klineAt "1")

theorem readable_klines {n : ℕ} : ∀ k ∈ klines n, (readKline unitBuiltins k).isSome := by
  intro k hk
  obtain ⟨i, -, rfl⟩ := List.mem_map.mp hk
  rw [readKline_klineAt]
  rfl

theorem length_history_klines (i n : ℕ) {candle : PriceRow ℝ}
    (hsymbol : candle.symbol = "BTCUSDT") :
    (history (readKline unitBuiltins) (entriesFrom i (klines n)) candle).length = n + 1 := by
  have hcandles : (entriesFrom i (klines n)).filterMap
      (fun e => readKline unitBuiltins e.values) = (List.range n).map fun i =>
        ⟨⌊(60000 * (i : ℚ)) / 1000 * 1000000⌋, "BTCUSDT", 1, 1, 1, 1, 1⟩ := by
    show List.filterMap (readKline unitBuiltins ∘ Entry.values) _ = _
    rw [← List.filterMap_map, values_entriesFrom, klines, List.filterMap_map,
      ← List.filterMap_eq_map]
    exact List.filterMap_congr fun i _ => readKline_klineAt i
  have hall : ∀ r ∈ (List.range n).map (fun i : ℕ => (⟨⌊(60000 * (i : ℚ)) / 1000 * 1000000⌋,
      "BTCUSDT", 1, 1, 1, 1, 1⟩ : PriceRow ℝ)) ++ [candle],
      decide (r.symbol = candle.symbol) = true := by
    intro r hr
    rw [decide_eq_true_eq, hsymbol]
    rcases List.mem_append.mp hr with hr | hr
    · obtain ⟨i, -, rfl⟩ := List.mem_map.mp hr
      rfl
    · rw [List.mem_singleton.mp hr, hsymbol]
  unfold history
  rw [hcandles, List.filter_eq_self.mpr hall]
  simp

theorem klines_succ (n : ℕ) : klines (n + 1) = klines n ++ [klineAt "1" n] := by
  unfold klines
  rw [List.range_succ, List.map_append, List.map_singleton]

/-- A kline without prices blocks the service until it is evicted by the last of `n + 1` others. -/
theorem exists_trimmed_klines {n : ℕ} (hn : maxLen ≤ 1 + n) :
    ∃ events w l, Runs.run (step realNumerics (readKline unitBuiltins)) World.start events =
        some w ∧
      Runs.Along (step realNumerics (readKline unitBuiltins)) KeepsUp World.start events ∧
      w.service = some l ∧ l.Waits w ∧
      w.log.entries = ⟨1, klineAt "" 0⟩ :: entriesFrom 1 (klines (n + 1)) ∧ w.dropped = 1 := by
  have hlength : maxLen ≤ 1 + (klines n).length := by
    rwa [klines, List.length_map, List.length_range]
  rw [klines_succ]
  refine exists_trimmed realNumerics (readKline_empty 0) ?_ hlength
  rw [← klines_succ]
  exact readable_klines

end Klines

/-! ## Every run -/

section Main

variable {P : Numerics K} {read : α → Option (PriceRow K)} {w : World α K}
  {events : List (Event α)}

/-- **Trimming never changes a row.** In every run of entries, evictions, batches, unreadable
messages, crashes and restarts in which no entry is evicted under a life that is still to receive
it, each row of `features` is computed from the last 62 to 120 candles of the symbol in the log,
without a hole; and where the candles of the symbol are in order it is the last row of the features
of its whole history, however much of that has been evicted. -/
theorem rows_from_history (h : Runs.run (step P read) World.start events = some w)
    (hkeeps : Runs.Along (step P read) KeepsUp World.start events) :
    ∀ f ∈ w.features, ∃ before x rest candle, w.log.entries = before ++ x :: rest ∧
      read x.values = some candle ∧
      (∃ m, minBuffer ≤ m ∧ m ≤ bufferSize ∧ m ≤ (history read before candle).length ∧
        f = featureRow candle.time candle.symbol
          (latestFeatureRow P (bufferToDf P ((history read before candle).rtake m)))) ∧
      ((history read before candle).Pairwise (fun a b => a.time < b.time) →
        f = featureRow candle.time candle.symbol
          (latestFeatureRow P (history read before candle))) :=
  fun f hf => ((Inv.of_run h hkeeps).features f hf).of_history

/-- A row that is left after a life that an unreadable entry has ended, and an eviction. -/
theorem rows_from_history_trimmed : ∃ (w : World Kline ℝ) (f : FeatureRow ℝ), w.dropped = 1 ∧
    f ∈ w.features ∧ ∃ before x rest candle, w.log.entries = before ++ x :: rest ∧
      readKline unitBuiltins x.values = some candle ∧
      (∃ m, minBuffer ≤ m ∧ m ≤ bufferSize ∧
        m ≤ (history (readKline unitBuiltins) before candle).length ∧
        f = featureRow candle.time candle.symbol (latestFeatureRow realNumerics
          (bufferToDf realNumerics ((history (readKline unitBuiltins) before candle).rtake m)))) ∧
      ((history (readKline unitBuiltins) before candle).Pairwise (fun a b => a.time < b.time) →
        f = featureRow candle.time candle.symbol
          (latestFeatureRow realNumerics (history (readKline unitBuiltins) before candle))) := by
  obtain ⟨n, hn⟩ : ∃ n, maxLen ≤ 1 + n := ⟨maxLen, Nat.le_add_left _ _⟩
  obtain ⟨events, w, l, hrun, hkeeps, hl, hwaits, hlog, hdropped⟩ := exists_trimmed_klines hn
  have hsplit : w.retained.entries =
      entriesFrom 1 (klines n) ++ (⟨1 + (klines n).length + 1, klineAt "1" n⟩ : Entry Kline) ::
        [] := by
    show w.log.entries.drop w.dropped = _
    rw [hlog, hdropped, klines_succ, entriesFrom_concat]
    rfl
  obtain ⟨candle, hcandle, -, hfeatures⟩ := (Inv.of_run hrun hkeeps).handled hl hwaits hsplit
  have hsymbol : candle.symbol = "BTCUSDT" := by
    rw [readKline_klineAt] at hcandle
    exact (congrArg PriceRow.symbol (Option.some.inj hcandle)).symm
  have hwarm : minBuffer ≤ (history (readKline unitBuiltins) (entriesFrom 1 (klines n))
      candle).length := by
    rw [length_history_klines 1 n hsymbol]
    have hmin : minBuffer ≤ maxLen := by decide
    omega
  obtain ⟨f, hf, -⟩ := List.mem_map.mp (hfeatures hwarm)
  exact ⟨w, f, hdropped, hf, rows_from_history hrun hkeeps f hf⟩

/-- **Only an unreadable entry stops the service, and while it is left it does.** Crashes, restarts
and handling lead from a state to a waiting service exactly if every entry that is left in the
stream can be read. -/
theorem catches_up_iff (h : Runs.run (step P read) World.start events = some w)
    (hkeeps : Runs.Along (step P read) KeepsUp World.start events) :
    (∃ own w' l, (∀ e ∈ own, Event.Own e) ∧ Runs.run (step P read) w own = some w' ∧
      w'.service = some l ∧ l.Waits w') ↔
    ∀ x ∈ w.retained.entries, (read x.values).isSome := by
  constructor
  · rintro ⟨own, w', l, hown, hrun, hl, hwaits⟩ x hx
    obtain ⟨hinv, hlog, hdropped⟩ := (Inv.of_run h hkeeps).own hown hrun
    unfold World.retained at hx
    rw [← hlog, ← hdropped] at hx
    obtain ⟨before, rest, hsplit⟩ := List.append_of_mem hx
    obtain ⟨candle, hcandle, -⟩ := hinv.handled hl hwaits hsplit
    rw [hcandle]
    rfl
  · exact exists_restart_waits P read

/-- A stream with a kline without prices. -/
theorem catches_up_iff_empty : ∃ (w : World Kline ℝ) (events : List (Event Kline)),
    Runs.run (step realNumerics (readKline unitBuiltins)) World.start events = some w ∧
    ¬ ∃ own w' l, (∀ e ∈ own, Event.Own e) ∧
      Runs.run (step realNumerics (readKline unitBuiltins)) w own = some w' ∧
      w'.service = some l ∧ l.Waits w' := by
  obtain ⟨w, hrun, hlog, -, hdropped, -⟩ := run_xadds realNumerics
    (readKline unitBuiltins) (w := .start) [klineAt "" 0] rfl
  have hkeeps := along_of_untrimmed realNumerics (readKline unitBuiltins) .start
    (untrimmed_xadds (entriesFrom 0 [klineAt "" 0]))
  refine ⟨w, _, hrun, fun hwaits => ?_⟩
  have hall := (catches_up_iff hrun hkeeps).mp hwaits ⟨1, klineAt "" 0⟩ (by
    show _ ∈ w.log.entries.drop w.dropped
    rw [hlog, hdropped]
    exact List.mem_singleton_self _)
  rw [readKline_empty] at hall
  cases hall

end Main

end PortfolioEngine.Features.Reader
