import PortfolioEngine.Features.Restart

/-!
# The unit of the prices

The features are computed from ratios of prices, so they do not depend on the currency that a
symbol is quoted in. `step_redenominate`: the consume loop commutes with a change of the unit of
each symbol.
-/

namespace PortfolioEngine.Features

open Recent Tables

variable {K : Type*} [Field K] [LinearOrder K]

/-! ## Another unit -/

/-- The candle with its prices in a unit of which `c` make the old one. -/
def rescale (c : K) (r : PriceRow K) : PriceRow K :=
  { r with
    opening := c * r.opening
    high := c * r.high
    low := c * r.low
    close := c * r.close }

/-- The candle in the unit of its symbol. -/
def redenominate (scale : Symbol → K) (r : PriceRow K) : PriceRow K := rescale (scale r.symbol) r

/-- `sort_index` looks at the timestamps only. -/
def SortsByTime (P : Numerics K) : Prop :=
  ∀ f : PriceRow K → PriceRow K, (∀ r, (f r).time = r.time) →
    ∀ buf, P.sortIndex (buf.map f) = (P.sortIndex buf).map f

omit [LinearOrder K] in
@[simp] theorem key_redenominate (scale : Symbol → K) (r : PriceRow K) :
    (redenominate scale r).key = r.key := rfl

omit [LinearOrder K] in
/-- The candles of one symbol have one unit. -/
theorem map_redenominate {scale : Symbol → K} {symbol : Symbol} {df : List (PriceRow K)}
    (h : ∀ r ∈ df, r.symbol = symbol) :
    df.map (redenominate scale) = df.map (rescale (scale symbol)) :=
  List.map_congr_left fun r hr => by
    unfold redenominate
    rw [h r hr]

theorem sortsByTime_realNumerics : SortsByTime realNumerics := fun f hf buf =>
  (List.map_mergeSort fun x _ y _ => by rw [hf, hf]).symm

/-! ## The columns -/

section Columns

variable [IsStrictOrderedRing K] {P : Numerics K} {c : K}

omit [LinearOrder K] [IsStrictOrderedRing K] in
theorem shift_map {α β : Type*} (f : α → β) (missing : α) (s : List α) :
    shift (f missing) (s.map f) = (shift missing s).map f := by
  unfold shift
  rw [List.length_map, ← List.map_cons, List.map_take]

theorem zipWith_div_mul (hc : 0 < c) (s s' : Series K) :
    List.zipWith Flt.div (s.map (Flt.fin c).mul) (s'.map (Flt.fin c).mul) =
      List.zipWith Flt.div s s' := by
  rw [List.zipWith_map]
  congr 1
  funext x y
  exact Flt.mul_div_mul hc x y

theorem zipWith_div_shift (hc : 0 < c) (s : Series K) :
    List.zipWith Flt.div (s.map (Flt.fin c).mul) (shift .nan (s.map (Flt.fin c).mul)) =
      List.zipWith Flt.div s (shift .nan s) := by
  have hshift : shift .nan (s.map (Flt.fin c).mul) = (shift .nan s).map (Flt.fin c).mul :=
    shift_map (Flt.fin c).mul .nan s
  rw [hshift, zipWith_div_mul hc]

theorem logReturns_mul (hc : 0 < c) (s : Series K) :
    logReturns P (s.map (Flt.fin c).mul) = logReturns P s := by
  unfold logReturns
  rw [zipWith_div_shift hc]

theorem parkinsonVol_mul (hc : 0 < c) (high low : Series K) (window : ℕ) :
    parkinsonVol P (high.map (Flt.fin c).mul) (low.map (Flt.fin c).mul) window =
      parkinsonVol P high low window := by
  unfold parkinsonVol
  rw [zipWith_div_mul hc]

omit [IsStrictOrderedRing K] in
theorem zipWith_sub_rescale (c : K) (df : List (PriceRow K)) :
    List.zipWith Flt.sub (high (df.map (rescale c))) (low (df.map (rescale c))) =
      (List.zipWith Flt.sub (high df) (low df)).map (Flt.fin c).mul := by
  unfold high low
  simp only [List.zipWith_map, List.zipWith_self, List.map_map]
  refine List.map_congr_left fun r _ => ?_
  show (Flt.fin (c * r.high)).sub (.fin (c * r.low)) =
    (Flt.fin c).mul ((Flt.fin r.high).sub (.fin r.low))
  rw [Flt.sub_fin, Flt.sub_fin, ← mul_sub]
  rfl

/-- No feature depends on the unit. -/
theorem computeFeatures_rescale (hc : 0 < c) (df : List (PriceRow K)) :
    computeFeatures P (df.map (rescale c)) = computeFeatures P df := by
  have hclose : close (df.map (rescale c)) = (close df).map (Flt.fin c).mul := by
    unfold close
    simp only [List.map_map]
    rfl
  have hhigh : high (df.map (rescale c)) = (high df).map (Flt.fin c).mul := by
    unfold high
    simp only [List.map_map]
    rfl
  have hlow : low (df.map (rescale c)) = (low df).map (Flt.fin c).mul := by
    unfold low
    simp only [List.map_map]
    rfl
  have hvolume : volume (df.map (rescale c)) = volume df := by
    unfold volume
    simp only [List.map_map]
    rfl
  unfold computeFeatures
  dsimp only
  rw [zipWith_sub_rescale, hclose, hvolume, hhigh, hlow, logReturns_mul hc, zipWith_div_mul hc]
  simp only [parkinsonVol_mul hc]

theorem featuresOf_redenominate (hsort : SortsByTime P) {scale : Symbol → K}
    (hscale : ∀ s, 0 < scale s) (candle : PriceRow K) {symbol : Symbol} {buf : List (PriceRow K)}
    (hbuf : ∀ r ∈ buf, r.symbol = symbol) :
    Restart.featuresOf P (redenominate scale candle) (buf.map (redenominate scale)) =
      Restart.featuresOf P candle buf := by
  have hdf : bufferToDf P (buf.map (rescale (scale symbol))) =
      (bufferToDf P buf).map (rescale (scale symbol)) :=
    hsort (rescale (scale symbol)) (fun r => rfl) buf
  unfold Restart.featuresOf latestFeatureRow
  rw [List.length_map, map_redenominate hbuf, hdf, computeFeatures_rescale (hscale symbol)]
  rfl

end Columns

/-! ## The consume loop -/

namespace Restart

/-- The buffer of each symbol holds candles of this symbol. -/
def Sorted (w : World K) : Prop :=
  ∀ life ∈ w.service, ∀ s, ∀ r ∈ life.buffers s, r.symbol = s

/-- The same world, with its candles in other units. -/
def World.redenominate (scale : Symbol → K) (w : World K) : World K :=
  { w with
    stream := w.stream.map (Features.redenominate scale)
    prices := w.prices.map (Features.redenominate scale)
    service := w.service.map fun life =>
      { life with buffers := fun s => (life.buffers s).map (Features.redenominate scale) } }

/-- The same event, with its candle in another unit. -/
def Event.redenominate (scale : Symbol → K) : Event K → Event K
  | .xadd candle => .xadd (Features.redenominate scale candle)
  | e => e

/-- The buffers of a life are those of its symbols. -/
theorem LifeInv.sorted {P : Numerics K} {stream : List (PriceRow K)} {k j : ℕ} {l : Life K}
    (h : LifeInv P stream k j l) {s : Symbol} {r : PriceRow K} (hr : r ∈ l.buffers s) :
    r.symbol = s := by
  rw [h.buffers, buffers_consume] at hr
  exact of_decide_eq_true (List.mem_filter.mp (mem_of_mem_rtake hr)).2

theorem Inv.sorted {P : Numerics K} {prices₀ : List (PriceRow K)} {features₀ : List (FeatureRow K)}
    {w : World K} {k j : ℕ} (h : Inv P prices₀ features₀ w k j) : Sorted w :=
  fun l hl _ _ hr => (h.life l hl).sorted hr

omit [Field K] [LinearOrder K] in
theorem push_map {α β : Type*} (f : α → β) (cap : ℕ) (buf : List α) (x : α) :
    push cap (buf.map f) (f x) = (push cap buf x).map f := by
  unfold push
  rw [← List.map_singleton, ← List.map_append, rtake_map]

theorem step_redenominate [IsStrictOrderedRing K] {P : Numerics K} (hsort : SortsByTime P)
    {scale : Symbol → K} (hscale : ∀ s, 0 < scale s) {w : World K} (hw : Sorted w) (e : Event K) :
    step P (w.redenominate scale) (e.redenominate scale) =
      (step P w e).map (World.redenominate scale) := by
  obtain ⟨stream, prices, features, service⟩ := w
  cases e with
  | xadd candle =>
    show some _ = some _
    simp only [World.redenominate, List.map_append, List.map_singleton]
  | start =>
    cases service with
    | none => rfl
    | some l => rfl
  | insertPrice =>
    cases service with
    | none => rfl
    | some l =>
      obtain ⟨position, priced, buffers⟩ := l
      cases priced with
      | true => rfl
      | false =>
        simp only [step, World.redenominate, Event.redenominate, Option.map_some, List.getElem?_map]
        cases stream[position]? with
        | none => rfl
        | some candle =>
          simp only [Option.map_some, World.redenominate,
            insertNew_map (key_redenominate scale)]
  | insertFeatures =>
    cases service with
    | none => rfl
    | some l =>
      obtain ⟨position, priced, buffers⟩ := l
      cases priced with
      | false => rfl
      | true =>
        simp only [step, World.redenominate, Event.redenominate, Option.map_some, List.getElem?_map]
        cases stream[position]? with
        | none => rfl
        | some candle =>
          -- the buffer with the candle still holds one symbol
          have hbuf : ∀ r ∈ push bufferSize (buffers candle.symbol) candle,
              r.symbol = candle.symbol := by
            intro r hr
            rcases List.mem_append.mp (mem_of_mem_rtake hr) with hr | hr
            · exact hw _ rfl _ r hr
            · rw [List.mem_singleton.mp hr]
          have hsymbol : (Features.redenominate scale candle).symbol = candle.symbol := rfl
          simp only [Option.map_some, World.redenominate, hsymbol, push_map,
            featuresOf_redenominate hsort hscale candle hbuf]
          congr 4
          funext s
          by_cases hs : s = candle.symbol
          · subst hs
            rw [Function.update_self, Function.update_self]
          · rw [Function.update_of_ne hs, Function.update_of_ne hs]
  | crash => rfl

end Restart

end PortfolioEngine.Features
