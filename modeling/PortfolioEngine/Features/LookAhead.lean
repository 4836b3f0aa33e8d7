import Mathlib.Data.List.Forall2
import PortfolioEngine.Features.Consume

/-!
# Look-ahead in stored features

A row of `features` is stored under the timestamp of the candle just read, and computed from the
last row of the sorted ring buffer. `noLookAhead_iff`: every stored row is the one of its own
timestamp and ignores later candles exactly if no candle that stores a row finds a later one in
its buffer. The order in which live and backfilled candles arrive does not ensure that.
-/

namespace PortfolioEngine.Features

open Recent Tables

variable {K : Type*} [Field K] [LinearOrder K]

/-! ## Streams that agree up to an instant -/

/-- The same candle, or one with the same key that opens after `t`. -/
def SameUpTo (t : ℤ) (x y : PriceRow K) : Prop := x.key = y.key ∧ (x.time ≤ t → x = y)

/-- Streams with the same keys that differ only in candles after `t`. -/
def AgreeUpTo (t : ℤ) (es es' : List (PriceRow K)) : Prop := List.Forall₂ (SameUpTo t) es es'

omit [Field K] [LinearOrder K] in
theorem SameUpTo.symm {t : ℤ} {x y : PriceRow K} (h : SameUpTo t x y) : SameUpTo t y x := by
  have htime : x.time = y.time := congrArg Prod.snd h.1
  exact ⟨h.1.symm, fun hy => (h.2 (htime ▸ hy)).symm⟩

omit [Field K] [LinearOrder K] in
theorem AgreeUpTo.symm {t : ℤ} {es es' : List (PriceRow K)} (h : AgreeUpTo t es es') :
    AgreeUpTo t es' es :=
  (List.Forall₂.imp (fun _ _ => SameUpTo.symm) h).flip

omit [Field K] [LinearOrder K] in
theorem AgreeUpTo.eq {t : ℤ} {es es' : List (PriceRow K)} (h : AgreeUpTo t es es')
    (ht : ∀ x ∈ es, x.time ≤ t) : es = es' := by
  induction h with
  | nil => rfl
  | cons hxy _ ih =>
    rw [hxy.2 (ht _ List.mem_cons_self), ih fun x hx => ht x (List.mem_cons_of_mem _ hx)]

omit [Field K] [LinearOrder K] in
theorem AgreeUpTo.exists_before {t : ℤ} {es es' es₁ : List (PriceRow K)} {c : PriceRow K}
    (h : AgreeUpTo t es es') (hpre : es₁ ++ [c] <+: es) :
    ∃ es₁' c', es₁' ++ [c'] <+: es' ∧ AgreeUpTo t es₁ es₁' ∧ SameUpTo t c c' := by
  induction h generalizing es₁ with
  | nil => exact absurd hpre not_concat_prefix_nil
  | @cons x y l l' hxy hl ih =>
    cases es₁ with
    | nil =>
      obtain ⟨rfl, _⟩ := List.cons_prefix_cons.mp hpre
      exact ⟨[], y, ⟨l', rfl⟩, .nil, hxy⟩
    | cons z es₁ =>
      obtain ⟨rfl, hpre'⟩ := List.cons_prefix_cons.mp hpre
      obtain ⟨es₁', c', hc', hes, hc⟩ := ih hpre'
      exact ⟨y :: es₁', c', List.cons_prefix_cons.mpr ⟨rfl, hc'⟩, .cons hxy hes, hc⟩

omit [Field K] [LinearOrder K] in
theorem AgreeUpTo.buffer {t : ℤ} {es es' : List (PriceRow K)} {c c' : PriceRow K}
    (h : AgreeUpTo t es es') (hc : SameUpTo t c c') :
    AgreeUpTo t (buffer es c) (buffer es' c') := by
  have hall : AgreeUpTo t (es ++ [c]) (es' ++ [c']) := List.rel_append h (.cons hc .nil)
  have hfilter : AgreeUpTo t ((es ++ [c]).filter fun r => r.symbol = c.symbol)
      ((es' ++ [c']).filter fun r => r.symbol = c'.symbol) := by
    refine List.rel_filter (fun x y hxy => ?_) hall
    have hs : c.symbol = c'.symbol := congrArg Prod.fst hc.1
    have hx : x.symbol = y.symbol := congrArg Prod.fst hxy.1
    show decide (x.symbol = c.symbol) = true ↔ decide (y.symbol = c'.symbol) = true
    rw [hs, hx]
  unfold Features.buffer List.rtake
  rw [hfilter.length_eq]
  exact List.forall₂_drop _ hfilter

omit [Field K] [LinearOrder K] in
theorem AgreeUpTo.warm {t : ℤ} {es es' : List (PriceRow K)} {c c' : PriceRow K}
    (h : AgreeUpTo t es es') (hc : SameUpTo t c c') (hwarm : Warm es c) : Warm es' c' := by
  unfold Warm
  rw [← (h.buffer hc).length_eq]
  exact hwarm

omit [Field K] [LinearOrder K] in
theorem AgreeUpTo.computed {t : ℤ} {es es' : List (PriceRow K)} {key : Symbol × ℤ}
    (h : AgreeUpTo t es es') (hes : Computed es key) : Computed es' key := by
  obtain ⟨es₁, c, hpre, hkey, hwarm⟩ := hes
  obtain ⟨es₁', c', hpre', hes₁, hc⟩ := h.exists_before hpre
  exact ⟨es₁', c', hpre', hc.1.symm.trans hkey, hes₁.warm hc hwarm⟩

omit [Field K] [LinearOrder K] in
/-- Which candles store a row is a matter of the keys. -/
theorem AgreeUpTo.storesRow {t : ℤ} {es es' : List (PriceRow K)} {c c' : PriceRow K}
    (h : AgreeUpTo t es es') (hc : SameUpTo t c c') (hstores : StoresRow es c) :
    StoresRow es' c' :=
  ⟨h.warm hc hstores.1, fun hes => hstores.2 (hc.1 ▸ h.symm.computed hes)⟩

/-! ## Stored rows -/

variable (P : Numerics K)

/-- The row stored for `c` after `es₁` is a row of `compute_features` whose index is the timestamp
of `c`. -/
def OwnRow (es₁ : List (PriceRow K)) (c : PriceRow K) : Prop :=
  ∃ i, (bufferToDf P (buffer es₁ c))[i]?.map PriceRow.time = some c.time ∧
    rowFor P es₁ c =
      featureRow c.time c.symbol (featureRowAt P (bufferToDf P (buffer es₁ c)) i)

/-- Every stored row is the one of its own timestamp, and is stored whatever the candles after
that timestamp are. -/
def NoLookAhead (es : List (PriceRow K)) : Prop :=
  ∀ es₁ c, es₁ ++ [c] <+: es → StoresRow es₁ c → OwnRow P es₁ c ∧
    ∀ es', AgreeUpTo c.time es es' → rowFor P es₁ c ∈ (consume P es').features

/-- No candle that stores a row finds a later one in the ring buffer. -/
def InOrder (es : List (PriceRow K)) : Prop :=
  ∀ es₁ c, es₁ ++ [c] <+: es → StoresRow es₁ c → ∀ x ∈ buffer es₁ c, x.time ≤ c.time

variable {P}

omit [Field K] [LinearOrder K] in
theorem mem_df {es : List (PriceRow K)} {c x : PriceRow K} :
    x ∈ bufferToDf P (buffer es c) ↔ x ∈ buffer es c := (P.sortIndex_perm _).mem_iff

variable (P) in
omit [Field K] [LinearOrder K] in
theorem exists_last (es : List (PriceRow K)) (c : PriceRow K) :
    ∃ u r, bufferToDf P (buffer es c) = u ++ [r] ∧ ∀ x ∈ buffer es c, x.time ≤ r.time := by
  have hc := mem_df (P := P).mpr (mem_buffer_self es c)
  rcases List.eq_nil_or_concat' (bufferToDf P (buffer es c)) with h | ⟨u, r, h⟩
  · rw [h] at hc; cases hc
  · refine ⟨u, r, h, fun x hx => ?_⟩
    have hx' := mem_df (P := P).mpr hx
    have hsorted := P.sortIndex_sorted (buffer es c)
    unfold bufferToDf at h hx'
    rw [h] at hx' hsorted
    rcases List.mem_append.mp hx' with hx' | hx'
    · exact (List.pairwise_append.mp hsorted).2.2 x hx' r (List.mem_singleton_self r)
    · rw [List.mem_singleton.mp hx']

theorem ownRow_of_le {es₁ : List (PriceRow K)} {c : PriceRow K}
    (h : ∀ x ∈ buffer es₁ c, x.time ≤ c.time) : OwnRow P es₁ c := by
  obtain ⟨u, r, hur, hmax⟩ := exists_last P es₁ c
  have hr : r ∈ buffer es₁ c :=
    mem_df (P := P).mp (hur ▸ List.mem_append_right u (List.mem_singleton_self r))
  refine ⟨u.length, ?_, ?_⟩
  · rw [hur, List.getElem?_concat_length]
    exact congrArg some (le_antisymm (h r hr) (hmax c (mem_buffer_self es₁ c)))
  · unfold rowFor
    rw [latestFeatureRow_eq, hur, List.length_append, List.length_singleton, Nat.add_sub_cancel]

/-- A row whose buffer has no later candle is stored again when only later candles differ. -/
theorem rowFor_mem_of_agree {es es₁ es' : List (PriceRow K)} {c : PriceRow K}
    (hpre : es₁ ++ [c] <+: es) (hstores : StoresRow es₁ c)
    (h : ∀ x ∈ buffer es₁ c, x.time ≤ c.time) (hagree : AgreeUpTo c.time es es') :
    rowFor P es₁ c ∈ (consume P es').features := by
  obtain ⟨es₁', c', hpre', hes₁, hc⟩ := hagree.exists_before hpre
  obtain rfl := hc.2 le_rfl
  refine (mem_features P es' _).mpr ⟨es₁', c, hpre', hes₁.storesRow hc hstores, ?_⟩
  unfold rowFor
  rw [(hes₁.buffer hc).eq h]

/-! ## A later candle in the buffer -/

/-- The candle with another range, if it opens after `t`. -/
def widen (t : ℤ) (h : K) (r : PriceRow K) : PriceRow K :=
  if t < r.time then { r with high := h, low := 0, close := 1 } else r

omit [LinearOrder K] in
theorem widen_key (t : ℤ) (h : K) (r : PriceRow K) : (widen t h r).key = r.key := by
  unfold widen
  split_ifs <;> rfl

omit [LinearOrder K] in
theorem sameUpTo_widen (t : ℤ) (h : K) (r : PriceRow K) : SameUpTo t r (widen t h r) := by
  refine ⟨(widen_key t h r).symm, fun hr => ?_⟩
  unfold widen
  rw [if_neg (not_lt.mpr hr)]

omit [LinearOrder K] in
theorem agreeUpTo_widen (t : ℤ) (h : K) (es : List (PriceRow K)) :
    AgreeUpTo t es (es.map (widen t h)) := by
  unfold AgreeUpTo
  rw [List.forall₂_map_right_iff, List.forall₂_same]
  exact fun r _ => sameUpTo_widen t h r

omit [LinearOrder K] in
theorem map_widen_concat (es : List (PriceRow K)) (c : PriceRow K) (h : K) :
    (es ++ [c]).map (widen c.time h) = es.map (widen c.time h) ++ [c] := by
  have hc : widen c.time h c = c := ((sameUpTo_widen c.time h c).2 le_rfl).symm
  rw [List.map_append, List.map_singleton, hc]

omit [LinearOrder K] in
theorem buffer_widen (es : List (PriceRow K)) (c : PriceRow K) (h : K) :
    buffer (es.map (widen c.time h)) c = (buffer es c).map (widen c.time h) := by
  have hsymbol : ((fun r : PriceRow K => decide (r.symbol = c.symbol)) ∘ widen c.time h) =
      fun r => decide (r.symbol = c.symbol) := by
    funext r
    have hr : (widen c.time h r).symbol = r.symbol := congrArg Prod.fst (widen_key c.time h r)
    show decide ((widen c.time h r).symbol = c.symbol) = _
    rw [hr]
  unfold buffer
  rw [← map_widen_concat, List.filter_map, hsymbol, rtake_map]

theorem lookup_widened {es₁ : List (PriceRow K)} {c x : PriceRow K} (hx : x ∈ buffer es₁ c)
    (hlt : c.time < x.time) (h : K) :
    (latestFeatureRow P (bufferToDf P (buffer (es₁.map (widen c.time h)) c))).lookup "hl_range" =
      some (some (.fin h)) := by
  obtain ⟨u, r, hur, hmax⟩ := exists_last P (es₁.map (widen c.time h)) c
  have hr : r ∈ buffer (es₁.map (widen c.time h)) c :=
    mem_df (P := P).mp (hur ▸ List.mem_append_right u (List.mem_singleton_self r))
  rw [buffer_widen] at hr hmax
  have htime : ∀ r : PriceRow K, (widen c.time h r).time = r.time :=
    fun r => congrArg Prod.snd (widen_key c.time h r)
  obtain ⟨y, _, rfl⟩ := List.mem_map.mp hr
  have hxy := hmax _ (List.mem_map_of_mem hx)
  rw [htime, htime] at hxy
  have hy : widen c.time h y = { y with high := h, low := 0, close := 1 } := by
    unfold widen
    rw [if_pos (hlt.trans_le hxy)]
  rw [hur, hy, lookup_hl_range u one_ne_zero]
  show some (some (Flt.fin ((h - 0) / 1))) = _
  rw [sub_zero, div_one]

/-- A row that is stored whatever the later candles are has none of them in its buffer. -/
theorem le_of_ignores {es es₁ : List (PriceRow K)} {c : PriceRow K} (hpre : es₁ ++ [c] <+: es)
    (hstores : StoresRow es₁ c)
    (h : ∀ es', AgreeUpTo c.time es es' → rowFor P es₁ c ∈ (consume P es').features) :
    ∀ x ∈ buffer es₁ c, x.time ≤ c.time := by
  intro x hx
  by_contra hlt
  have hrange : ∀ a : K, ((latestFeatureRow P (bufferToDf P (buffer es₁ c))).lookup
      "hl_range").join = some (.fin a) := by
    intro a
    have hpre' : es₁.map (widen c.time a) ++ [c] <+: es.map (widen c.time a) := by
      rw [← map_widen_concat]
      exact hpre.map _
    have hstores' : StoresRow (es₁.map (widen c.time a)) c :=
      (agreeUpTo_widen c.time a es₁).storesRow ⟨rfl, fun _ => rfl⟩ hstores
    have hmem := h _ (agreeUpTo_widen c.time a es)
    have hmem' := (mem_features P _ _).mpr ⟨_, c, hpre', hstores', rfl⟩
    have heq := eq_of_key_eq (nodup_features P _) hmem hmem'
      ((rowFor_key P _ c).trans (rowFor_key P _ c).symm)
    unfold rowFor at heq
    have hlookup := lookup_widened (P := P) hx (not_le.mp hlt) a
    refine (lookup_eq_of_featureRow_eq heq (by simp [featureCols])).trans ?_
    exact congrArg Option.join hlookup
  have h01 := (hrange 0).symm.trans (hrange 1)
  simp at h01

theorem inOrder_of_noLookAhead {es : List (PriceRow K)} (h : NoLookAhead P es) : InOrder es :=
  fun es₁ c hpre hstores => le_of_ignores hpre hstores (h es₁ c hpre hstores).2

/-- **No look-ahead.** Every stored row is the one of its own timestamp and ignores later candles
exactly if no candle that stores a row finds a later one in the ring buffer. -/
theorem noLookAhead_iff (P : Numerics K) (es : List (PriceRow K)) :
    NoLookAhead P es ↔ InOrder es := by
  refine ⟨inOrder_of_noLookAhead, fun h es₁ c hpre hstores => ?_⟩
  have hle := h es₁ c hpre hstores
  exact ⟨ownRow_of_le hle, fun es' hagree => rowFor_mem_of_agree hpre hstores hle hagree⟩

/-- A minute candle of BTC with all prices 1. -/
def flatCandle (i : ℕ) : PriceRow K := ⟨i * minute, "BTC", 1, 1, 1, 1, 1⟩

/-- A live candle, and then 61 older ones from the backfill. -/
def lateBackfill : List (PriceRow K) := flatCandle 100 :: (List.range 61).map flatCandle

/-- The last of them stores the row of the live candle under its own timestamp. -/
theorem lateBackfill_looks_ahead : ¬ ∃ P : Numerics ℚ, NoLookAhead P lateBackfill := by
  rintro ⟨P, h⟩
  have hsplit : (lateBackfill : List (PriceRow ℚ)) =
      (flatCandle 100 :: (List.range 60).map flatCandle) ++ [flatCandle 60] := by decide +kernel
  have hpre : (flatCandle 100 :: (List.range 60).map flatCandle) ++ [flatCandle 60] <+:
      (lateBackfill : List (PriceRow ℚ)) := hsplit ▸ List.prefix_refl _
  have hwarm : Warm (flatCandle 100 :: (List.range 60).map flatCandle : List (PriceRow ℚ))
      (flatCandle 60) := by
    unfold Warm
    decide +kernel
  have hnew : ¬ Computed (flatCandle 100 :: (List.range 60).map flatCandle : List (PriceRow ℚ))
      (flatCandle 60 : PriceRow ℚ).key := by
    rintro ⟨es₁, c, hpre', _, hwarm'⟩
    have hlen := hpre'.length_le
    have hbuf := length_buffer_le es₁ c
    have hmin : minBuffer = 62 := rfl
    unfold Warm at hwarm'
    simp only [List.length_append, List.length_cons, List.length_map, List.length_range,
      List.length_nil] at hlen
    omega
  have hle := inOrder_of_noLookAhead h _ _ hpre ⟨hwarm, hnew⟩ (flatCandle 100) (by decide +kernel)
  revert hle
  decide +kernel

end PortfolioEngine.Features
