import PortfolioEngine.Features.Consume
import PortfolioEngine.Features.RealNumerics
import PortfolioEngine.Lib.Runs

/-!
# Crashes and restarts of the consume loop

The service keeps its ring buffers in memory and its tables in the database. It can be killed at
any point of a message, also between the insert of the price and the insert of the features, and
after a restart it reads the stream from the id 0 with empty buffers.

Every life of the service makes the same inserts in the same order, each as far as it gets, and
an insert of a key that is taken does nothing: `Tables.Absorbing`. `restart_safe`: once a life has
come to the end of the stream the tables are those of one uninterrupted run.
-/

namespace PortfolioEngine.Features.Restart

open Recent Tables

variable {K : Type*} [Field K] [LinearOrder K]

/-! ## The system -/

/-- A life of the service: the entries handled, whether the price of the next one is inserted, and
the ring buffers. -/
structure Life (K : Type*) where
  position : ℕ
  priced : Bool
  buffers : Symbol → List (PriceRow K)

/-- The stream of candles, the tables and the service, if it is up. -/
structure World (K : Type*) where
  stream : List (PriceRow K)
  prices : List (PriceRow K)
  features : List (FeatureRow K)
  service : Option (Life K)

inductive Event (K : Type*) where
  | xadd (candle : PriceRow K)
  | start
  | insertPrice
  /-- The rest of a message: append, compute and insert the features. -/
  | insertFeatures
  | crash

/-- The features that the code computes from a buffer, once it is long enough. -/
def featuresOf (P : Numerics K) (candle : PriceRow K) (buf : List (PriceRow K)) :
    Option (FeatureRow K) :=
  if minBuffer ≤ buf.length then
    some (featureRow candle.time candle.symbol (latestFeatureRow P (bufferToDf P buf)))
  else none

/-- One event. -/
def step (P : Numerics K) (w : World K) : Event K → Option (World K)
  | .xadd candle => some { w with stream := w.stream ++ [candle] }
  | .start =>
    match w.service with
    | none => some { w with service := some ⟨0, false, fun _ => []⟩ }
    | some _ => none
  | .insertPrice =>
    match w.service with
    | some ⟨position, false, buffers⟩ =>
      (w.stream[position]?).map fun candle =>
        { w with
          prices := insertNew PriceRow.key candle w.prices
          service := some ⟨position, true, buffers⟩ }
    | _ => none
  | .insertFeatures =>
    match w.service with
    | some ⟨position, true, buffers⟩ =>
      (w.stream[position]?).map fun candle =>
        let buf := push bufferSize (buffers candle.symbol) candle
        { w with
          features := insertSome FeatureRow.key w.features (featuresOf P candle buf)
          service := some ⟨position + 1, false, Function.update buffers candle.symbol buf⟩ }
    | _ => none
  | .crash => some { w with service := none }

/-- The service is down; the stream and the tables may hold anything. -/
def World.start (stream prices : List (PriceRow K)) (features : List (FeatureRow K)) : World K :=
  ⟨stream, prices, features, none⟩

/-- The stores after the candles `es`, from the tables `prices` and `features`. -/
def consumeFrom (P : Numerics K) (prices : List (PriceRow K)) (features : List (FeatureRow K))
    (es : List (PriceRow K)) : Stores K :=
  es.foldl (consumeOne P) ⟨prices, features, fun _ => []⟩

theorem consumeOne_eq (P : Numerics K) (w : World K) {position : ℕ}
    {buffers : Symbol → List (PriceRow K)} {candle : PriceRow K}
    (hw : w.service = some ⟨position, false, buffers⟩)
    (hcandle : w.stream[position]? = some candle) :
    Runs.run (step P) w [.insertPrice, .insertFeatures] =
      let st := consumeOne P ⟨w.prices, w.features, buffers⟩ candle
      some { w with
        prices := st.prices
        features := st.features
        service := some ⟨position + 1, false, st.buffers⟩ } := by
  simp only [Runs.run, step, hw, hcandle, Option.map_some, Option.bind_some, consumeOne, featuresOf]
  split_ifs <;> rfl

/-! ## What a step does -/

/-- From which state an event leads to which. -/
inductive Steps (P : Numerics K) (w : World K) : Event K → World K → Prop
  | xadd (candle : PriceRow K) :
      Steps P w (.xadd candle) { w with stream := w.stream ++ [candle] }
  | start (down : w.service = none) :
      Steps P w .start { w with service := some ⟨0, false, fun _ => []⟩ }
  | insertPrice (position : ℕ) (buffers : Symbol → List (PriceRow K)) (candle : PriceRow K)
      (up : w.service = some ⟨position, false, buffers⟩)
      (next : w.stream[position]? = some candle) :
      Steps P w .insertPrice { w with
        prices := insertNew PriceRow.key candle w.prices
        service := some ⟨position, true, buffers⟩ }
  | insertFeatures (position : ℕ) (buffers : Symbol → List (PriceRow K)) (candle : PriceRow K)
      (up : w.service = some ⟨position, true, buffers⟩)
      (next : w.stream[position]? = some candle) :
      Steps P w .insertFeatures { w with
        features := insertSome FeatureRow.key w.features
          (featuresOf P candle (push bufferSize (buffers candle.symbol) candle))
        service := some ⟨position + 1, false, Function.update buffers candle.symbol
          (push bufferSize (buffers candle.symbol) candle)⟩ }
  | crash : Steps P w .crash { w with service := none }

theorem steps_of_step {P : Numerics K} {w w' : World K} {e : Event K} (h : step P w e = some w') :
    Steps P w e w' := by
  cases e with
  | xadd candle =>
    cases h
    exact .xadd candle
  | start =>
    simp only [step] at h
    split at h
    next hw =>
      cases h
      exact .start hw
    · cases h
  | insertPrice =>
    simp only [step] at h
    split at h
    next position buffers hw =>
      obtain ⟨candle, hcandle, rfl⟩ := Option.map_eq_some_iff.mp h
      exact .insertPrice position buffers candle hw hcandle
    · cases h
  | insertFeatures =>
    simp only [step] at h
    split at h
    next position buffers hw =>
      obtain ⟨candle, hcandle, rfl⟩ := Option.map_eq_some_iff.mp h
      exact .insertFeatures position buffers candle hw hcandle
    · cases h
  | crash =>
    cases h
    exact .crash

/-! ## The inserts of a life -/

/-- What the candle after `es` inserts into `features`. -/
def featureInsert (P : Numerics K) (es : List (PriceRow K)) (candle : PriceRow K) :
    Option (FeatureRow K) :=
  featuresOf P candle (buffer es candle)

/-- The inserts into `features`, candle by candle. -/
def featureInserts (P : Numerics K) (es : List (PriceRow K)) : List (Option (FeatureRow K)) :=
  es.zipIdx.map fun c => featureInsert P (es.take c.2) c.1

theorem length_featureInserts (P : Numerics K) (es : List (PriceRow K)) :
    (featureInserts P es).length = es.length := by
  unfold featureInserts
  rw [List.length_map, List.length_zipIdx]

theorem getElem?_featureInserts (P : Numerics K) {es : List (PriceRow K)} {i : ℕ}
    {candle : PriceRow K} (h : es[i]? = some candle) :
    (featureInserts P es)[i]? = some (featureInsert P (es.take i) candle) := by
  unfold featureInserts
  simp [h]

theorem featureInserts_concat (P : Numerics K) (es : List (PriceRow K)) (candle : PriceRow K) :
    featureInserts P (es ++ [candle]) = featureInserts P es ++ [featureInsert P es candle] := by
  unfold featureInserts
  rw [List.zipIdx_append, List.map_append]
  refine congrArg₂ (· ++ ·) (List.map_congr_left fun c hc => ?_) ?_
  · have hlt : c.2 < es.length := by
      have := List.snd_lt_of_mem_zipIdx hc
      omega
    rw [List.take_append_of_le_length hlt.le]
  · simp

theorem buffers_consumeFrom (P : Numerics K) (prices : List (PriceRow K))
    (features : List (FeatureRow K)) (es : List (PriceRow K)) :
    (consumeFrom P prices features es).buffers = (consume P es).buffers := by
  induction es using List.reverseRecOn with
  | nil => rfl
  | append_singleton es candle ih =>
    unfold consumeFrom at ih ⊢
    rw [List.foldl_concat, consume_concat, buffers_consumeOne, buffers_consumeOne, ih]

theorem push_consumeFrom (P : Numerics K) (prices : List (PriceRow K))
    (features : List (FeatureRow K)) (es : List (PriceRow K)) (candle : PriceRow K) :
    push bufferSize ((consumeFrom P prices features es).buffers candle.symbol) candle =
      buffer es candle := by
  rw [buffers_consumeFrom, push_consume]

theorem tables_consumeOne (P : Numerics K) (st : Stores K) (candle : PriceRow K) :
    (consumeOne P st candle).prices = insertSome PriceRow.key st.prices (some candle) ∧
      (consumeOne P st candle).features = insertSome FeatureRow.key st.features
        (featuresOf P candle (push bufferSize (st.buffers candle.symbol) candle)) := by
  unfold consumeOne featuresOf
  dsimp only
  split_ifs <;> exact ⟨rfl, rfl⟩

theorem consumeFrom_eq (P : Numerics K) (prices : List (PriceRow K))
    (features : List (FeatureRow K)) (es : List (PriceRow K)) :
    (consumeFrom P prices features es).prices =
        (es.map some).foldl (insertSome PriceRow.key) prices ∧
      (consumeFrom P prices features es).features =
        (featureInserts P es).foldl (insertSome FeatureRow.key) features := by
  induction es using List.reverseRecOn with
  | nil => exact ⟨rfl, rfl⟩
  | append_singleton es candle ih =>
    have hpush := push_consumeFrom P prices features es candle
    have hlast := tables_consumeOne P (consumeFrom P prices features es) candle
    rw [hpush, ih.1, ih.2] at hlast
    rw [List.map_append, List.map_singleton, List.foldl_concat, featureInserts_concat,
      List.foldl_concat]
    unfold consumeFrom at hlast ⊢
    rw [List.foldl_concat]
    exact hlast

/-! ## The invariant -/

section Invariant

variable {P : Numerics K} {prices₀ : List (PriceRow K)} {features₀ : List (FeatureRow K)}

/-- A life that has come to its position: at least `k` prices and `j` features have been inserted
there, by itself or by an earlier life, and its buffers are those of its own entries. -/
structure LifeInv (P : Numerics K) (stream : List (PriceRow K)) (k j : ℕ) (l : Life K) : Prop where
  prices : (if l.priced then l.position + 1 else l.position) ≤ k
  features : l.position ≤ j
  buffers : l.buffers = (consume P (stream.take l.position)).buffers

/-- The longest life so far has made the first `k` inserts of prices and the first `j` inserts of
features. -/
structure Inv (P : Numerics K) (prices₀ : List (PriceRow K)) (features₀ : List (FeatureRow K))
    (w : World K) (k j : ℕ) : Prop where
  le : k ≤ w.stream.length
  le' : j ≤ w.stream.length
  prices : w.prices = ((w.stream.map some).take k).foldl (insertSome PriceRow.key) prices₀
  features : w.features =
    ((featureInserts P w.stream).take j).foldl (insertSome FeatureRow.key) features₀
  life : ∀ l ∈ w.service, LifeInv P w.stream k j l

theorem LifeInv.xadd {stream : List (PriceRow K)} {k j : ℕ} {l : Life K}
    (h : LifeInv P stream k j l) (hj : j ≤ stream.length) (candle : PriceRow K) :
    LifeInv P (stream ++ [candle]) k j l := by
  refine ⟨h.prices, h.features, ?_⟩
  rw [List.take_append_of_le_length (h.features.trans hj)]
  exact h.buffers

theorem Inv.xadd {w : World K} {k j : ℕ} (h : Inv P prices₀ features₀ w k j) (candle : PriceRow K) :
    Inv P prices₀ features₀ { w with stream := w.stream ++ [candle] } k j where
  le := by rw [List.length_append]; exact h.le.trans (Nat.le_add_right _ _)
  le' := by rw [List.length_append]; exact h.le'.trans (Nat.le_add_right _ _)
  prices := by
    rw [List.map_append, List.take_append_of_le_length (by rw [List.length_map]; exact h.le)]
    exact h.prices
  features := by
    rw [featureInserts_concat,
      List.take_append_of_le_length (by rw [length_featureInserts]; exact h.le')]
    exact h.features
  life := fun l hl => (h.life l hl).xadd h.le' candle

/-- An insert of a price that has been made before, or is the next one. -/
theorem Inv.insertPrice {w : World K} {k j position : ℕ} {buffers : Symbol → List (PriceRow K)}
    (h : Inv P prices₀ features₀ w k j) (hw : w.service = some ⟨position, false, buffers⟩)
    {candle : PriceRow K} (hcandle : w.stream[position]? = some candle) :
    Inv P prices₀ features₀
      { w with
        prices := insertNew PriceRow.key candle w.prices
        service := some ⟨position, true, buffers⟩ } (max k (position + 1)) j := by
  have hlife := h.life _ hw
  have hposition : position ≤ k := hlife.prices
  have hlt : position < w.stream.length := (List.getElem?_eq_some_iff.mp hcandle).1
  refine ⟨max_le h.le hlt, h.le', ?_, h.features, ?_⟩
  · show insertSome PriceRow.key w.prices (some candle) = _
    rw [h.prices]
    refine (absorbing_insertSome PriceRow.key).replay ?_ hposition prices₀
    rw [List.getElem?_map, hcandle, Option.map_some]
  · rintro l ⟨⟩
    exact ⟨le_max_right _ _, hlife.features, hlife.buffers⟩

/-- The same for the features, and the entry is handled. -/
theorem Inv.insertFeatures {w : World K} {k j position : ℕ} {buffers : Symbol → List (PriceRow K)}
    (h : Inv P prices₀ features₀ w k j) (hw : w.service = some ⟨position, true, buffers⟩)
    {candle : PriceRow K} (hcandle : w.stream[position]? = some candle)
    {buf : List (PriceRow K)} (hbuf : buf = push bufferSize (buffers candle.symbol) candle) :
    Inv P prices₀ features₀
      { w with
        features := insertSome FeatureRow.key w.features (featuresOf P candle buf)
        service := some ⟨position + 1, false, Function.update buffers candle.symbol buf⟩ }
      k (max j (position + 1)) := by
  have hlife := h.life _ hw
  obtain ⟨hlt, hget⟩ := List.getElem?_eq_some_iff.mp hcandle
  have hbuffers : buffers = (consume P (w.stream.take position)).buffers := hlife.buffers
  have htake : w.stream.take (position + 1) = w.stream.take position ++ [candle] := by
    rw [List.take_succ_eq_append_getElem hlt, hget]
  rw [hbuffers, push_consume] at hbuf
  refine ⟨h.le, max_le h.le' hlt, h.prices, ?_, ?_⟩
  · show insertSome FeatureRow.key w.features _ = _
    rw [h.features, hbuf]
    exact (absorbing_insertSome FeatureRow.key).replay (getElem?_featureInserts P hcandle)
      hlife.features features₀
  · rintro l ⟨⟩
    refine ⟨hlife.prices, le_max_right _ _, ?_⟩
    show Function.update buffers candle.symbol buf =
      (consume P (w.stream.take (position + 1))).buffers
    rw [htake, consume_concat, buffers_consumeOne, push_consume, hbuf, hbuffers]

theorem Inv.launch {w : World K} {k j : ℕ} (h : Inv P prices₀ features₀ w k j) :
    Inv P prices₀ features₀ { w with service := some ⟨0, false, fun _ => []⟩ } k j := by
  refine ⟨h.le, h.le', h.prices, h.features, ?_⟩
  rintro l ⟨⟩
  exact ⟨Nat.zero_le k, Nat.zero_le j, rfl⟩

theorem Inv.crash {w : World K} {k j : ℕ} (h : Inv P prices₀ features₀ w k j) :
    Inv P prices₀ features₀ { w with service := none } k j :=
  ⟨h.le, h.le', h.prices, h.features, by rintro l ⟨⟩⟩

theorem Inv.step {w w' : World K} {e : Event K} {k j : ℕ} (h : Inv P prices₀ features₀ w k j)
    (hstep : step P w e = some w') : ∃ k' j', Inv P prices₀ features₀ w' k' j' := by
  cases steps_of_step hstep with
  | xadd candle => exact ⟨k, j, h.xadd candle⟩
  | start => exact ⟨k, j, h.launch⟩
  | insertPrice position buffers candle hw hcandle => exact ⟨_, _, h.insertPrice hw hcandle⟩
  | insertFeatures position buffers candle hw hcandle =>
    exact ⟨_, _, h.insertFeatures hw hcandle rfl⟩
  | crash => exact ⟨k, j, h.crash⟩

theorem Inv.start (P : Numerics K) (stream prices₀ : List (PriceRow K))
    (features₀ : List (FeatureRow K)) :
    Inv P prices₀ features₀ (World.start stream prices₀ features₀) 0 0 :=
  ⟨Nat.zero_le _, Nat.zero_le _, rfl, rfl, by rintro l ⟨⟩⟩

end Invariant

/-! ## Every run -/

/-- **Restarts are safe.** After any run of entries, crashes and restarts in which the last life
has come to the end of the stream, the tables are those of one uninterrupted run over the stream
from the same initial tables. -/
theorem restart_safe (P : Numerics K) {stream₀ prices₀ : List (PriceRow K)}
    {features₀ : List (FeatureRow K)} {es : List (Event K)} {w : World K} {l : Life K}
    (h : Runs.run (step P) (World.start stream₀ prices₀ features₀) es = some w)
    (hl : w.service = some l) (hend : l.position = w.stream.length) :
    w.prices = (consumeFrom P prices₀ features₀ w.stream).prices ∧
      w.features = (consumeFrom P prices₀ features₀ w.stream).features := by
  have hinv : ∃ k j, Inv P prices₀ features₀ w k j :=
    Runs.run_invariant (I := fun w => ∃ k j, Inv P prices₀ features₀ w k j)
      (fun s e t ⟨_, _, hi⟩ hs => hi.step hs) ⟨0, 0, Inv.start P stream₀ prices₀ features₀⟩ h
  obtain ⟨k, j, hw⟩ := hinv
  obtain ⟨hprices, hfeatures⟩ := consumeFrom_eq P prices₀ features₀ w.stream
  have hlife := hw.life l hl
  have hk : w.stream.length ≤ k := by
    have := hlife.prices
    split_ifs at this <;> omega
  have hj : w.stream.length ≤ j := hend ▸ hlife.features
  rw [hw.prices, hw.features, hprices, hfeatures, List.take_of_length_le, List.take_of_length_le]
  · exact ⟨rfl, rfl⟩
  · rw [length_featureInserts]; exact hj
  · rw [List.length_map]; exact hk

/-! ## A crash and a restart -/

/-- The inserts that handle the entries. -/
def inserts (es : List (PriceRow K)) : List (Event K) :=
  es.flatMap fun _ => [.insertPrice, .insertFeatures]

/-- The service is up, before the entry at `position`, with these stores. -/
def handling (stream : List (PriceRow K)) (position : ℕ) (st : Stores K) : World K :=
  ⟨stream, st.prices, st.features, some ⟨position, false, st.buffers⟩⟩

theorem run_inserts (P : Numerics K) {stream : List (PriceRow K)} {position : ℕ} (st : Stores K)
    {rest : List (PriceRow K)} (hrest : rest <+: stream.drop position) :
    Runs.run (step P) (handling stream position st) (inserts rest) =
      some (handling stream (position + rest.length) (rest.foldl (consumeOne P) st)) := by
  induction rest generalizing position st with
  | nil => rfl
  | cons candle rest ih =>
    have hlt : position < stream.length := by
      by_contra hle
      rw [List.drop_of_length_le (not_lt.mp hle)] at hrest
      cases List.prefix_nil.mp hrest
    rw [List.drop_eq_getElem_cons hlt, List.cons_prefix_cons] at hrest
    obtain ⟨hcandle, hrest⟩ := hrest
    have hget : (handling stream position st).stream[position]? = some candle := by
      unfold handling
      rw [List.getElem?_eq_getElem hlt, ← hcandle]
    have hone : Runs.run (step P) (handling stream position st) [.insertPrice, .insertFeatures] =
        some (handling stream (position + 1) (consumeOne P st candle)) :=
      consumeOne_eq P (handling stream position st) rfl hget
    show Runs.run (step P) _ ([.insertPrice, .insertFeatures] ++ inserts rest) = _
    rw [Runs.run_append, hone, Option.bind_some, ih (consumeOne P st candle) hrest,
      List.foldl_cons, List.length_cons, Nat.add_assoc, Nat.add_comm 1]

/-- A life that handles the entries `es` and is killed between the two inserts of the next one. -/
def firstLife (es : List (PriceRow K)) : List (Event K) :=
  .start :: inserts es ++ [.insertPrice, .crash]

theorem run_firstLife (P : Numerics K) {stream es : List (PriceRow K)} {candle : PriceRow K}
    (hstream : stream = es ++ [candle]) :
    Runs.run (step P) (World.start stream [] []) (firstLife es) =
      some ⟨stream, insertNew PriceRow.key candle (consume P es).prices, (consume P es).features,
        none⟩ := by
  have hes : es <+: stream.drop 0 := ⟨[candle], hstream.symm⟩
  have hcandle : stream[es.length]? = some candle := by simp [hstream]
  have hlife := run_inserts P ⟨[], [], fun _ => []⟩ hes
  unfold firstLife
  rw [List.cons_append]
  show Runs.run (step P) (handling stream 0 ⟨[], [], fun _ => []⟩) _ = _
  rw [Runs.run_append, hlife, Option.bind_some, Nat.zero_add]
  simp only [Runs.run, step, handling, hcandle, Option.map_some, Option.bind_some]
  rfl

theorem run_secondLife (P : Numerics K) {stream es : List (PriceRow K)} {candle : PriceRow K}
    (hstream : stream = es ++ [candle]) :
    ∃ st, Runs.run (step P) (World.start stream [] []) (firstLife es ++ .start :: inserts stream) =
      some (handling stream stream.length st) := by
  have hall : stream <+: stream.drop 0 := List.prefix_refl _
  have hlife := run_inserts P ⟨insertNew PriceRow.key candle (consume P es).prices,
    (consume P es).features, fun _ => []⟩ hall
  rw [Nat.zero_add] at hlife
  have hfirst := congrArg (Option.bind · fun w => Runs.run (step P) w (.start :: inserts stream))
    (run_firstLife P hstream)
  exact ⟨_, (Runs.run_append _ _).trans (hfirst.trans hlife)⟩

/-- A crash between the two inserts of the 62nd candle, and a restart that stores its row. -/
theorem restart_safe_crash :
    ∃ w : World ℝ, w.features.length = 1 ∧
      Runs.run (step realNumerics) (World.start (steady "BTCUSDT" 62) [] [])
        (firstLife (steady "BTCUSDT" 61) ++ .start :: inserts (steady "BTCUSDT" 62)) = some w ∧
      w.prices = (consumeFrom realNumerics [] [] w.stream).prices ∧
      w.features = (consumeFrom realNumerics [] [] w.stream).features := by
  obtain ⟨st, hrun⟩ := run_secondLife realNumerics (steady_succ "BTCUSDT" 61)
  have hsafe := restart_safe realNumerics hrun rfl rfl
  refine ⟨_, ?_, hrun, hsafe⟩
  rw [hsafe.2]
  show (consume realNumerics (steady "BTCUSDT" 62)).features.length = 1
  rw [features_steady, length_steadyRows]

end PortfolioEngine.Features.Restart
