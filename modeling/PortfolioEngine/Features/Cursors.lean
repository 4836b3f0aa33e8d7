import PortfolioEngine.Features.Restart

/-!
# The tables between crashes

The tables of the consume loop at any moment, also while an entry is handled, while the service is
down, and while a new life reads again what an earlier one has handled.

`tables_at_cursors`: two cursors into the stream describe them. The prices are those of an
uninterrupted run over the entries before the first cursor, the features those of one over the
entries before the second, which is the same place or one entry behind; and the cursors never go
back.
-/

namespace PortfolioEngine.Features.Restart

open Tables

variable {K : Type*} [Field K] [LinearOrder K]

/-! ## The inserts of a prefix -/

theorem featureInserts_take (P : Numerics K) (es : List (PriceRow K)) (j : ℕ) :
    (featureInserts P es).take j = featureInserts P (es.take j) := by
  refine List.ext_getElem? fun i => ?_
  rw [List.getElem?_take]
  split_ifs with hi
  · cases hcandle : es[i]? with
    | none =>
      have hlen := List.getElem?_eq_none_iff.mp hcandle
      rw [List.getElem?_eq_none_iff.mpr (by rw [length_featureInserts]; exact hlen),
        List.getElem?_eq_none_iff.mpr]
      rw [length_featureInserts, List.length_take]
      omega
    | some candle =>
      have htake : (es.take j)[i]? = some candle := by rw [List.getElem?_take, if_pos hi, hcandle]
      rw [getElem?_featureInserts P hcandle, getElem?_featureInserts P htake, List.take_take,
        min_eq_left hi.le]
  · refine (List.getElem?_eq_none_iff.mpr ?_).symm
    rw [length_featureInserts, List.length_take]
    omega

/-! ## What the tables hold -/

theorem prices_consume (P : Numerics K) (es : List (PriceRow K)) (candle : PriceRow K) :
    (consume P (es ++ [candle])).prices =
      insertNew PriceRow.key candle (consume P es).prices := by
  rw [consume_concat]
  exact (tables_consumeOne P (consume P es) candle).1

theorem mem_of_mem_prices {P : Numerics K} {es : List (PriceRow K)} {r : PriceRow K}
    (h : r ∈ (consume P es).prices) : r ∈ es := by
  induction es using List.reverseRecOn with
  | nil => cases h
  | append_singleton es candle ih =>
    rw [prices_consume] at h
    rcases mem_insertNew.mp h with h | ⟨_, rfl⟩
    · exact List.mem_append_left _ (ih h)
    · exact List.mem_append_right _ (List.mem_singleton_self r)

theorem nodup_prices (P : Numerics K) (es : List (PriceRow K)) :
    ((consume P es).prices.map PriceRow.key).Nodup := by
  induction es using List.reverseRecOn with
  | nil => exact List.nodup_nil
  | append_singleton es candle ih =>
    rw [prices_consume]
    exact nodup_insertNew ih

theorem mem_keys_prices {P : Numerics K} {es : List (PriceRow K)} {c : PriceRow K} (h : c ∈ es) :
    c.key ∈ (consume P es).prices.map PriceRow.key := by
  induction es using List.reverseRecOn with
  | nil => cases h
  | append_singleton es candle ih =>
    rw [prices_consume]
    rcases List.mem_append.mp h with h | h
    · exact ((prefix_insertNew PriceRow.key candle _).map _).subset (ih h)
    · rw [List.mem_singleton.mp h]
      exact mem_keys_insertNew PriceRow.key candle _

/-- The features of the first `j` entries have prices among those of the first `k`. -/
theorem priced_of_le (P : Numerics K) (es : List (PriceRow K)) {k j : ℕ} (h : j ≤ k)
    {f : FeatureRow K} (hf : f ∈ (consume P (es.take j)).features) :
    f.key ∈ (consume P (es.take k)).prices.map PriceRow.key := by
  obtain ⟨es₁, candle, hpre, _, rfl⟩ := (mem_features P _ f).mp hf
  have hj : candle ∈ es.take j :=
    hpre.subset (List.mem_append_right es₁ (List.mem_singleton_self candle))
  have hk : candle ∈ es.take k := (List.take_prefix_take_left h).subset hj
  rw [rowFor_key]
  exact mem_keys_prices hk

/-- Rows are only added. -/
structure Grows (w w' : World K) : Prop where
  stream : w.stream <+: w'.stream
  prices : w.prices <+: w'.prices
  features : w.features <+: w'.features

omit [Field K] [LinearOrder K] in
theorem Grows.insertSome (w : World K) (row : Option (FeatureRow K)) (service : Option (Life K)) :
    Grows w { w with
      features := Tables.insertSome FeatureRow.key w.features row
      service := service } :=
  ⟨List.prefix_refl _, List.prefix_refl _, prefix_insertSome FeatureRow.key w.features row⟩

theorem grows_step {P : Numerics K} {w w' : World K} {e : Event K} (h : step P w e = some w') :
    Grows w w' := by
  cases steps_of_step h with
  | xadd candle => exact ⟨List.prefix_append _ _, List.prefix_refl _, List.prefix_refl _⟩
  | start => exact ⟨List.prefix_refl _, List.prefix_refl _, List.prefix_refl _⟩
  | insertPrice position buffers candle =>
    exact ⟨List.prefix_refl _, prefix_insertNew PriceRow.key candle w.prices, List.prefix_refl _⟩
  | insertFeatures => exact .insertSome w _ _
  | crash => exact ⟨List.prefix_refl _, List.prefix_refl _, List.prefix_refl _⟩

/-! ## The cursors -/

/-- The prices are those of the first `k` entries of the stream and the features those of the first
`j`. -/
structure AtCursors (P : Numerics K) (w : World K) (k j : ℕ) : Prop where
  le : k ≤ w.stream.length
  behind : j ≤ k
  near : k ≤ j + 1
  prices : w.prices = (consume P (w.stream.take k)).prices
  features : w.features = (consume P (w.stream.take j)).features

/-- The invariant of the lives, with the features at most one entry behind the prices. -/
structure CursorInv (P : Numerics K) (w : World K) (k j : ℕ) : Prop extends Inv P [] [] w k j where
  behind : j ≤ k
  near : k ≤ j + 1

variable {P : Numerics K} {w w' : World K} {k j : ℕ}

theorem CursorInv.atCursors (h : CursorInv P w k j) : AtCursors P w k j := by
  refine ⟨h.le, h.behind, h.near, ?_, ?_⟩
  · rw [h.prices, ← List.map_take]
    exact (consumeFrom_eq P [] [] (w.stream.take k)).1.symm
  · rw [h.features, featureInserts_take]
    exact (consumeFrom_eq P [] [] (w.stream.take j)).2.symm

theorem CursorInv.start (P : Numerics K) (stream : List (PriceRow K)) :
    CursorInv P (World.start stream [] []) 0 0 :=
  ⟨Inv.start P stream [] [], le_rfl, Nat.zero_le 1⟩

/-- One event moves at most one cursor, by one entry or not at all. -/
theorem CursorInv.step {e : Event K} (h : CursorInv P w k j) (hstep : step P w e = some w') :
    ∃ k' j', CursorInv P w' k' j' ∧ k ≤ k' ∧ j ≤ j' := by
  have hbehind := h.behind
  have hnear := h.near
  cases steps_of_step hstep with
  | xadd candle => exact ⟨k, j, ⟨h.toInv.xadd candle, hbehind, hnear⟩, le_rfl, le_rfl⟩
  | start => exact ⟨k, j, ⟨h.toInv.launch, hbehind, hnear⟩, le_rfl, le_rfl⟩
  | insertPrice position buffers candle hw hcandle =>
    -- a life that starts again is behind both cursors and moves none until it has caught up
    have hposition : position ≤ j := (h.life _ hw).features
    exact ⟨_, j, ⟨h.toInv.insertPrice hw hcandle, by omega, by omega⟩, le_max_left _ _, le_rfl⟩
  | insertFeatures position buffers candle hw hcandle =>
    have hposition : position + 1 ≤ k := (h.life _ hw).prices
    exact ⟨k, _, ⟨h.toInv.insertFeatures hw hcandle rfl, by omega, by omega⟩, le_rfl,
      le_max_left _ _⟩
  | crash => exact ⟨k, j, ⟨h.toInv.crash, hbehind, hnear⟩, le_rfl, le_rfl⟩

theorem CursorInv.run {es : List (Event K)} (h : CursorInv P w k j)
    (hrun : Runs.run (Restart.step P) w es = some w') :
    ∃ k' j', CursorInv P w' k' j' ∧ k ≤ k' ∧ j ≤ j' := by
  refine Runs.run_invariant (I := fun w => ∃ k' j', CursorInv P w k' j' ∧ k ≤ k' ∧ j ≤ j') ?_
    ⟨k, j, h, le_rfl, le_rfl⟩ hrun
  rintro s e t ⟨k₁, j₁, hinv, hk, hj⟩ hstep
  obtain ⟨k₂, j₂, hinv', hk', hj'⟩ := hinv.step hstep
  exact ⟨k₂, j₂, hinv', hk.trans hk', hj.trans hj'⟩

/-! ## Catching up -/

theorem run_xadds (P : Numerics K) (w : World K) (es : List (PriceRow K)) :
    Runs.run (step P) w (es.map .xadd) = some { w with stream := w.stream ++ es } := by
  induction es generalizing w with
  | nil => rw [List.append_nil]; rfl
  | cons candle es ih =>
    refine (ih _).trans ?_
    rw [List.append_assoc]
    rfl

/-- A restart from any reachable state, once it has handled every entry, leaves exactly the state
of a first life that has consumed the stream. -/
theorem run_restart {stream₀ : List (PriceRow K)}
    (h : Runs.Reachable (step P) (World.start stream₀ [] []) w) :
    Runs.run (step P) w ([.crash, .start] ++ inserts w.stream) =
      some (handling w.stream w.stream.length (consume P w.stream)) := by
  obtain ⟨es, hes⟩ := h
  obtain ⟨k₀, j₀, hinv, _, _⟩ := (CursorInv.start P stream₀).run hes
  have hrun : Runs.run (step P) w ([.crash, .start] ++ inserts w.stream) =
      some (handling w.stream (0 + w.stream.length)
        (w.stream.foldl (consumeOne P) ⟨w.prices, w.features, fun _ => []⟩)) := by
    have hall : w.stream <+: w.stream.drop 0 := List.prefix_refl _
    rw [Runs.run_append]
    exact run_inserts P ⟨w.prices, w.features, fun _ => []⟩ hall
  obtain ⟨k, j, hinv', _, _⟩ := hinv.run hrun
  have hat := hinv'.atCursors
  have hlife := hinv'.life _ rfl
  have hj : w.stream.length ≤ j := by
    have := hlife.features
    rwa [Nat.zero_add] at this
  have hk : w.stream.length ≤ k := hj.trans hat.behind
  have hprices := hat.prices
  have hfeatures := hat.features
  have hbuffers := hlife.buffers
  unfold handling at hprices hfeatures hbuffers
  dsimp only at hprices hfeatures hbuffers
  rw [List.take_of_length_le hk] at hprices
  rw [List.take_of_length_le hj] at hfeatures
  rw [Nat.zero_add, List.take_length] at hbuffers
  rw [hrun, Nat.zero_add]
  unfold handling
  rw [hprices, hfeatures, hbuffers]

/-! ## Streams in order -/

/-- The first candle of a key is later than the candles of its symbol before it. -/
def InOrder (stream : List (PriceRow K)) : Prop :=
  ∀ es candle, es ++ [candle] <+: stream → candle.key ∉ es.map PriceRow.key →
    ∀ c ∈ es, c.symbol = candle.symbol → c.time < candle.time

omit [Field K] [LinearOrder K] in
theorem InOrder.of_prefix {stream stream' : List (PriceRow K)} (h : InOrder stream')
    (hpre : stream <+: stream') : InOrder stream :=
  fun es candle hes => h es candle (hes.trans hpre)

theorem CursorInv.newest {position : ℕ} {buffers : Symbol → List (PriceRow K)}
    {candle : PriceRow K} (h : CursorInv P w k j) (horder : InOrder w.stream)
    (hw : w.service = some ⟨position, false, buffers⟩)
    (hcandle : w.stream[position]? = some candle)
    (hnew : candle.key ∉ w.prices.map PriceRow.key) :
    ∀ p ∈ w.prices, p.symbol = candle.symbol → p.time < candle.time := by
  obtain ⟨hlt, hget⟩ := List.getElem?_eq_some_iff.mp hcandle
  have hat := h.atCursors
  have hfirst : candle.key ∉ (w.stream.take k).map PriceRow.key := by
    intro hc
    obtain ⟨c, hc, hkey⟩ := List.mem_map.mp hc
    refine hnew ?_
    rw [hat.prices, ← hkey]
    exact mem_keys_prices hc
  -- An earlier entry would have its price already.
  have hposition : position = k := by
    have hle : position ≤ k := (h.life _ hw).prices
    by_contra hne
    refine hfirst (List.mem_map_of_mem (List.mem_take_iff_getElem.mpr ⟨position, ?_, hget⟩))
    omega
  have hpre : w.stream.take k ++ [candle] <+: w.stream := by
    rw [← hposition, ← hget, ← List.take_succ_eq_append_getElem hlt]
    exact List.take_prefix _ _
  intro p hp
  rw [hat.prices] at hp
  exact horder _ candle hpre hfirst p (mem_of_mem_prices hp)

/-- **The tables at any moment.** In every state that entries, crashes and restarts lead to, the
tables are those of uninterrupted runs over two beginnings of the stream, the one of the features
equal to the one of the prices or one entry shorter, and later both are only longer. -/
theorem tables_at_cursors (P : Numerics K) {stream₀ : List (PriceRow K)} {es es' : List (Event K)}
    {w w' : World K} (h : Runs.run (step P) (World.start stream₀ [] []) es = some w)
    (h' : Runs.run (step P) w es' = some w') :
    ∃ k j k' j', AtCursors P w k j ∧ AtCursors P w' k' j' ∧ k ≤ k' ∧ j ≤ j' := by
  obtain ⟨k, j, hw, _, _⟩ := (CursorInv.start P stream₀).run h
  obtain ⟨k', j', hw', hk, hj⟩ := hw.run h'
  exact ⟨k, j, k', j', hw.atCursors, hw'.atCursors, hk, hj⟩

/-- A crash between the two inserts of the 63rd candle, then a life that handles them all and
stores its row. -/
theorem tables_at_cursors_crash :
    ∃ w w' : World ℝ, w.features.length = 1 ∧ w'.features.length = 2 ∧
      Runs.run (step realNumerics) (World.start (steady "BTCUSDT" 63) [] [])
        (firstLife (steady "BTCUSDT" 62)) = some w ∧
      Runs.run (step realNumerics) w ([.crash, .start] ++ inserts w.stream) = some w' ∧
      ∃ k j k' j', AtCursors realNumerics w k j ∧ AtCursors realNumerics w' k' j' ∧
        k ≤ k' ∧ j ≤ j' := by
  have hrun := run_firstLife realNumerics (steady_succ "BTCUSDT" 62)
  have hrun' := run_restart ⟨_, hrun⟩
  refine ⟨_, _, ?_, ?_, hrun, hrun', tables_at_cursors realNumerics hrun hrun'⟩
  · dsimp only
    rw [features_steady, length_steadyRows]
  · dsimp only [handling]
    rw [features_steady, length_steadyRows]

end PortfolioEngine.Features.Restart
