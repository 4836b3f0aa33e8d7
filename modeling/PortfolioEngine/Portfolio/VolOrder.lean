import PortfolioEngine.Portfolio.Allocator

/-!
# The order of the inverse-volatility weights

The inverted volatilities are in the order opposite to the volatilities, and clipping keeps it. A
round of `_project_weights` keeps it too, unless the larger of two weights stops just below the cap
and the other one goes on to it.

`inverseVolWeights_antitone`: a lower volatility never gets less weight, up to the tolerance of the
rounds over the cap.
-/

namespace PortfolioEngine.Allocator

variable {K : Type*} [Field K] [LinearOrder K] [IsStrictOrderedRing K] {n : ℕ}

/-! ## A round -/

/-- Coordinate `i` is at least coordinate `j`, or it is as good as at the cap. -/
def Ahead (cap : K) (i j : Fin n) (v : Fin n → K) : Prop := v j ≤ v i ∨ cap - 1e-12 ≤ v i

section Round

variable {cap delta : K} {v : Fin n → K} {i j : Fin n}

theorem Ahead.spread (hv : InBox cap v) (hd : 0 ≤ delta) (h : Ahead cap i j v) :
    Ahead cap i j (spread cap delta v) := by
  rcases h with h | h
  · by_cases hj : j ∈ free cap v
    · by_cases hi : i ∈ free cap v
      · left
        rw [spread_of_free hd hi, spread_of_free hd hj]
        exact min_le_min_right cap (by linarith)
      · -- `i` is above the lower bound, as `j` is, so it stopped at the upper one
        right
        rw [spread_of_not_free hv hi]
        by_contra hlt
        exact hi (mem_free.mpr ⟨(mem_free.mp hj).1.trans_le h, not_le.mp hlt⟩)
    · left
      rw [spread_of_not_free hv hj]
      exact h.trans (le_spread hv hd i)
  · exact .inr (h.trans (le_spread hv hd i))

/-- The rounds keep two coordinates in their order, up to the tolerance. -/
theorem settle_ahead (hv : InBox cap v) (hsum : ∑ k, v k ≤ 1)
    (h : ∀ i j, v j ≤ v i → Ahead cap i j v) (N : ℕ) :
    ∃ v', settle cap N v = some v' ∧ InBox cap v' ∧ (∀ k, v k ≤ v' k) ∧
      ∀ i j, v j ≤ v i → Ahead cap i j v' := by
  obtain ⟨_, v', hs, ⟨hr, ha⟩, _⟩ := settle_rule cap
    (fun k x => Rising cap v N k x ∧ ∀ i j, v j ≤ v i → Ahead cap i j x)
    (fun k x hx _ hc => by
      refine ⟨hx.1.spread hc, fun i j hij => (hx.2 i j hij).spread hx.1.inBox ?_⟩
      exact div_nonneg (sub_nonneg.mpr hx.1.sum_le) (Nat.cast_nonneg _))
    N v ⟨Rising.start hv hsum N, h⟩
  exact ⟨v', hs, hr.inBox, hr.above, ha⟩

end Round

/-! ## The projection -/

omit [IsStrictOrderedRing K] in
theorem clip_of_nonneg {cap : K} {w : Fin n → K} (h0 : ∀ i, 0 ≤ w i) (i : Fin n) :
    clip cap w i = min (w i) cap := by
  unfold clip
  rw [max_eq_left (h0 i)]

theorem exists_cap_le_clip {cap : K} {w : Fin n → K} (h0 : ∀ i, 0 ≤ w i) (h1 : ∑ i, w i = 1)
    (h : ¬isCloseToOne (∑ i, clip cap w i)) : ∃ k, cap ≤ clip cap w k := by
  by_contra hnone
  simp only [not_exists, not_le] at hnone
  refine h ?_
  have hsame : ∑ i, clip cap w i = 1 := by
    rw [← h1]
    refine Finset.sum_congr rfl fun i _ => ?_
    rw [clip_of_nonneg h0, min_eq_left]
    by_contra hlt
    refine absurd (hnone i) ?_
    rw [clip_of_nonneg h0, min_eq_right (not_le.mp hlt).le]
    exact lt_irrefl _
  rw [hsame, isCloseToOne_iff, sub_self, abs_zero]
  norm_num

/-- The projection of nonnegative weights that sum to 1 keeps their order, up to the tolerance. -/
theorem projectWeights_ordered {cap : K} (hcap : 0 < cap) {w : Fin n → K} (h0 : ∀ i, 0 ≤ w i)
    (h1 : ∑ i, w i = 1) (N : ℕ) :
    ∃ v, projectWeights w cap N = some v ∧ ∀ i j, w j ≤ w i → v j - 1e-12 / cap ≤ v i := by
  have hslack : 0 ≤ 1e-12 / cap := div_nonneg (by norm_num) hcap.le
  have horder : ∀ i j, w j ≤ w i → clip cap w j ≤ clip cap w i := by
    intro i j hij
    rw [clip_of_nonneg h0, clip_of_nonneg h0]
    exact min_le_min_right cap hij
  by_cases hclose : isCloseToOne (∑ i, clip cap w i)
  · refine ⟨clip cap w, by unfold projectWeights; rw [if_pos hclose], fun i j hij => ?_⟩
    linarith [horder i j hij]
  obtain ⟨k, hk⟩ : ∃ k, cap ≤ clip cap w k := exists_cap_le_clip h0 h1 hclose
  have hsum : ∑ i, clip cap w i ≤ 1 := by
    rw [← h1]
    exact Finset.sum_le_sum fun i _ => by rw [clip_of_nonneg h0]; exact min_le_left _ _
  -- after the rounds the larger weight is still the larger one, or within 1e-12 of the cap
  obtain ⟨v, hs, hbox, habove, hahead⟩ := settle_ahead (clip_inBox hcap.le w) hsum
    (fun i j hij => .inl hij) N
  have htotal : cap ≤ ∑ i, v i :=
    (hk.trans (habove k)).trans
      (Finset.single_le_sum (f := v) (fun i _ => (hbox i).1) (Finset.mem_univ k))
  have hpos : 0 < ∑ i, v i := hcap.trans_le htotal
  refine ⟨fun i => v i / ∑ i, v i, ?_, fun i j hij => ?_⟩
  · unfold projectWeights
    dsimp only
    rw [if_neg hclose, hs, Option.bind_eq_bind, Option.bind_some, if_neg (not_le.mpr hpos),
      divideAll_eq_some hpos.ne']
  · have hnear : v j - v i ≤ 1e-12 := by
      rcases hahead i j (horder i j hij) with h | h
      · linarith [(by norm_num : (0 : K) ≤ 1e-12)]
      · linarith [(hbox j).2]
    have hscaled : (v j - v i) / ∑ i, v i ≤ 1e-12 / cap :=
      (div_le_div_of_nonneg_right hnear hpos.le).trans
        (div_le_div_of_nonneg_left (by norm_num) hcap htotal)
    rw [sub_div] at hscaled
    linarith

/-! ## The inverted volatilities -/

/-- The inverted volatility, above the floor of the code. -/
def inverted (vol : K) : K := 1 / max vol 1e-12

theorem inverted_pos (vol : K) : 0 < inverted vol :=
  one_div_pos.mpr (lt_max_of_lt_right (by norm_num))

theorem inverted_antitone {x y : K} (h : x ≤ y) : inverted y ≤ inverted x :=
  one_div_le_one_div_of_le (lt_max_of_lt_right (by norm_num)) (max_le_max h le_rfl)

theorem recip_safeVol_fin (vol : K) : recip (safeVol (.fin vol)) = some (inverted vol) := by
  have hfloor : (0 : K) < max vol 1e-12 := lt_max_of_lt_right (by norm_num)
  have hsafe : safeVol (.fin vol) = .fin (max vol 1e-12) := by
    unfold safeVol
    split_ifs with h
    · rw [max_eq_left (Flt.fin_lt_fin.mp h).le]
    · rw [max_eq_right (not_lt.mp fun hc => h (Flt.fin_lt_fin.mpr hc))]
  rw [hsafe]
  exact divide_eq_some hfloor.ne' 1

theorem inverseVolWeights_fin (hn : 0 < n) (vols : Fin n → K) (cap : K) :
    0 < ∑ i, inverted (vols i) ∧ inverseVolWeights (fun i => .fin (vols i)) cap =
      projectWeights (fun i => inverted (vols i) / ∑ i, inverted (vols i)) cap defaultMaxIter := by
  have hpos : 0 < ∑ i, inverted (vols i) :=
    Finset.sum_pos (fun i _ => inverted_pos (vols i)) ⟨⟨0, hn⟩, Finset.mem_univ _⟩
  refine ⟨hpos, ?_⟩
  unfold inverseVolWeights
  rw [collect_eq_some fun i => recip_safeVol_fin (vols i), Option.bind_eq_bind, Option.bind_some,
    if_pos hpos, divideAll_eq_some hpos.ne']
  rfl

/-- **Lower volatility never gets less weight**, up to the tolerance of the rounds. -/
theorem inverseVolWeights_antitone (hn : 0 < n) (vols : Fin n → K) {cap : K} (hcap : 1e-11 ≤ cap) :
    ∃ w, inverseVolWeights (fun i => .fin (vols i)) cap = some w ∧
      (∀ i j, vols i ≤ vols j → w j - 2e-12 / cap ≤ w i) ∧
      ∀ i j, vols i = vols j → |w i - w j| ≤ 2e-12 / cap := by
  have hpos : 0 < cap := (by norm_num : (0 : K) < 1e-11).trans_le hcap
  obtain ⟨htotal, hw⟩ := inverseVolWeights_fin hn vols cap
  obtain ⟨hdivide, h0, h1⟩ := normalized (fun i => (inverted_pos (vols i)).le) htotal
  obtain ⟨w, hproject, horder⟩ := projectWeights_ordered hpos h0 h1 defaultMaxIter
  have hslack : (1e-12 : K) / cap ≤ 2e-12 / cap := div_le_div_of_nonneg_right (by norm_num) hpos.le
  have hmain : ∀ i j, vols i ≤ vols j → w j - 2e-12 / cap ≤ w i := by
    intro i j hij
    have := horder i j (div_le_div_of_nonneg_right (inverted_antitone hij) htotal.le)
    linarith
  refine ⟨w, hw.trans hproject, hmain, fun i j hij => abs_le.mpr ⟨?_, ?_⟩⟩
  · linarith [hmain i j hij.le]
  · linarith [hmain j i hij.ge]

/-- Two volatilities, the smaller of which gets the cap. -/
theorem inverseVolWeights_antitone_two :
    ∃ w, inverseVolWeights (fun i => .fin (![(1 : ℚ), 4] i)) 0.6 = some w ∧
      (∀ i j, ![(1 : ℚ), 4] i ≤ ![(1 : ℚ), 4] j → w j - 2e-12 / 0.6 ≤ w i) ∧
      ∀ i j, ![(1 : ℚ), 4] i = ![(1 : ℚ), 4] j → |w i - w j| ≤ 2e-12 / 0.6 :=
  inverseVolWeights_antitone Nat.two_pos ![1, 4] (by norm_num)

end PortfolioEngine.Allocator
