import PortfolioEngine.Portfolio.Allocator
import PortfolioEngine.Portfolio.ProjectionRounds

/-!
# The weight cap

`_project_weights` clips to the cap, but its last step divides by the sum and does not clip again.
Where the coordinates that clipping leaves above the tolerance cannot carry the whole weight, the
rounds stop short of 1 and the division lifts every weight at the cap above it.

`Capacity` is the largest sum the rounds can reach. `projectWeights_le_cap` and
`projectWeights_gt_cap` decide a single vector by it, and `capRespected_iff` says for which caps
no vector, forecast or market exceeds the cap.
-/

namespace PortfolioEngine.Allocator

open Matrix

variable {n : ℕ} {cap : ℝ} {v v₀ w : Fin n → ℝ}

/-! ## Capacity -/

theorem sum_le_capacity (hv : InBox cap v) : ∑ i, v i ≤ capacity cap v := by
  unfold capacity
  refine Finset.sum_le_sum fun i _ => ?_
  split_ifs
  · exact (hv i).2
  · exact le_rfl

/-- Raising keeps the capacity: it moves the coordinates above the tolerance only. -/
theorem Rising.capacity_eq {N j : ℕ} (h : Rising cap v₀ N j v) :
    capacity cap v = capacity cap v₀ := by
  unfold capacity
  refine Finset.sum_congr rfl fun i _ => ?_
  by_cases hi : 1e-12 < v₀ i
  · rw [if_pos hi, if_pos (hi.trans_le (h.above i))]
  · have hlow := h.low i (not_lt.mp hi)
    rw [if_neg hi, if_neg (by rw [hlow]; exact hi), hlow]

theorem near_cap_of_no_free (hfree : (free cap v).card = 0) {i : Fin n} (hi : 1e-12 < v i) :
    cap - 1e-12 ≤ v i := by
  by_contra hlt
  have hmem : i ∈ free cap v := mem_free.mpr ⟨by rw [zero_add]; exact hi, not_le.mp hlt⟩
  rw [Finset.card_eq_zero.mp hfree] at hmem
  exact Finset.notMem_empty i hmem

/-- With no free coordinate left, the sum misses the capacity by at most the tolerance for each
coordinate above it, and these make up most of the sum. -/
theorem capacity_le_of_no_free (hv : InBox cap v) (hfree : (free cap v).card = 0) :
    ∃ h : ℝ, 0 ≤ h ∧ h ≤ n ∧ capacity cap v ≤ ∑ i, v i + h * 1e-12 ∧
      h * cap ≤ ∑ i, v i + h * 1e-12 ∧ h * 1e-12 ≤ ∑ i, v i := by
  set H := Finset.univ.filter fun i => 1e-12 < v i with hH
  have hconst : ∀ x : ℝ, (H.card : ℝ) * x = ∑ i, if 1e-12 < v i then x else 0 := by
    intro x
    rw [← Finset.sum_filter, Finset.sum_const, nsmul_eq_mul]
  refine ⟨H.card, Nat.cast_nonneg _, ?_, ?_, ?_, ?_⟩
  · exact Nat.cast_le.mpr (card_finset_fin_le H)
  · rw [hconst, ← Finset.sum_add_distrib]
    unfold capacity
    refine Finset.sum_le_sum fun i _ => ?_
    split_ifs with hi
    · have := near_cap_of_no_free hfree hi
      linarith
    · linarith
  · rw [hconst, hconst, ← Finset.sum_add_distrib]
    refine Finset.sum_le_sum fun i _ => ?_
    split_ifs with hi
    · have := near_cap_of_no_free hfree hi
      linarith
    · linarith [(hv i).1]
  · rw [hconst]
    refine Finset.sum_le_sum fun i _ => ?_
    split_ifs with hi
    · exact hi.le
    · exact (hv i).1

/-! ## One vector -/

theorem projectWeights_of_settle {k : ℕ} (hclose : ¬ isCloseToOne (∑ i, clip cap w i))
    (hs : settle cap k (clip cap w) = some v) (hpos : 0 < ∑ i, v i) :
    projectWeights w cap k = some fun i => v i / ∑ j, v j := by
  unfold projectWeights
  rw [if_neg hclose, hs, Option.bind_eq_bind, Option.bind_some, if_neg (not_le.mpr hpos),
    divideAll_eq_some hpos.ne']

theorem settle_down_spec (hcap : 0 ≤ cap) (k : ℕ) (hv : InBox cap v) (hsum : 1 ≤ ∑ i, v i) :
    ∃ v', settle cap k v = some v' ∧ InBox cap v' ∧ 1 ≤ ∑ i, v' i := by
  obtain ⟨_, v', hs, ⟨hb, h1⟩, _⟩ := settle_rule cap
    (fun _ x => InBox cap x ∧ 1 ≤ ∑ i, x i)
    (fun _ _ hx _ hc => ⟨clip_inBox hcap _, one_le_sum_afterRound hx.1 hx.2 hc⟩) k v ⟨hv, hsum⟩
  exact ⟨v', hs, hb, h1⟩

/-- Where the coordinates above the tolerance can carry the whole weight, or all but what the
tolerance 1e-9 of the cap allows, the cap holds. -/
theorem projectWeights_le_cap (hn : (n : ℝ) ≤ 10 ^ 100) (hcap : 0 < cap) (hcap1 : cap ≤ 1)
    (hw : isCloseToOne (∑ i, clip cap w i) ∨ 1 ≤ capacity cap (clip cap w) ∨
      cap ≤ (cap + 1e-9) * (capacity cap (clip cap w) - n * 1e-12)) :
    ∃ v, projectWeights w cap defaultMaxIter = some v ∧ ∀ i, v i ≤ cap + 1e-9 := by
  have hbox := clip_inBox hcap.le w
  by_cases hclose : isCloseToOne (∑ i, clip cap w i)
  · refine ⟨clip cap w, by unfold projectWeights; rw [if_pos hclose], fun i => ?_⟩
    have := (hbox i).2
    linarith
  have hcapacity := hw.resolve_left hclose
  -- It is enough that the rounds end with a sum near enough to 1 for the cap.
  suffices h : ∃ v', settle cap defaultMaxIter (clip cap w) = some v' ∧ InBox cap v' ∧
      cap ≤ (cap + 1e-9) * ∑ i, v' i by
    obtain ⟨v', hs, hv', hle⟩ := h
    have hpos : 0 < ∑ i, v' i := by
      by_contra hneg
      nlinarith [not_lt.mp hneg]
    refine ⟨_, projectWeights_of_settle hclose hs hpos, fun i => ?_⟩
    rw [div_le_iff₀ hpos]
    exact (hv' i).2.trans hle
  rcases le_total (∑ i, clip cap w i) 1 with hsum | hsum
  · obtain ⟨j, v', hs, hr, hend⟩ := settle_up_spec hn hbox hsum
    refine ⟨v', hs, hr.inBox, ?_⟩
    rcases hend with hdiff | hfree
    · have := (abs_lt.mp hdiff).2
      nlinarith
    · obtain ⟨h, h0, hhn, hc, hcap', htol⟩ := capacity_le_of_no_free hr.inBox hfree
      rw [hr.capacity_eq] at hc
      rcases hcapacity with hone | hnear
      · nlinarith
      · have hlow : capacity cap (clip cap w) - n * 1e-12 ≤ ∑ i, v' i := by linarith
        exact hnear.trans (mul_le_mul_of_nonneg_left hlow (by linarith))
  · obtain ⟨v', hs, hv', h1⟩ := settle_down_spec hcap.le defaultMaxIter hbox hsum
    exact ⟨v', hs, hv', by nlinarith⟩

/-- Where they cannot, a coordinate above the tolerance ends above the cap. -/
theorem projectWeights_gt_cap (hn : (n : ℝ) ≤ 10 ^ 100) (hcap : 0 < cap) (hcap1 : cap ≤ 1)
    (hclose : ¬ isCloseToOne (∑ i, clip cap w i)) {i : Fin n} (hi : 1e-12 < clip cap w i)
    (hw : (cap + 1e-9) * capacity cap (clip cap w) < cap - 1e-12) :
    ∃ v, projectWeights w cap defaultMaxIter = some v ∧ cap + 1e-9 < v i := by
  have hbox := clip_inBox hcap.le w
  have hle := sum_le_capacity hbox
  have hsum : ∑ i, clip cap w i ≤ 1 := by nlinarith
  obtain ⟨j, v', hs, hr, hend⟩ := settle_up_spec hn hbox hsum
  have hle' := sum_le_capacity hr.inBox
  rw [hr.capacity_eq] at hle'
  have hfree : (free cap v').card = 0 := by
    refine hend.resolve_left fun hdiff => ?_
    have := (abs_lt.mp hdiff).2
    nlinarith
  have hvi : 1e-12 < v' i := hi.trans_le (hr.above i)
  have hnear := near_cap_of_no_free hfree hvi
  have hpos : 0 < ∑ i, v' i := by
    have h1 : v' i ≤ ∑ i, v' i :=
      Finset.single_le_sum (fun j _ => (hr.inBox j).1) (Finset.mem_univ i)
    linarith
  refine ⟨_, projectWeights_of_settle hclose hs hpos, ?_⟩
  rw [lt_div_iff₀ hpos]
  nlinarith

theorem settle_of_no_free (hfree : ∀ i, ¬ isFree cap (v i)) (k : ℕ) :
    settle cap k v = some v := by
  have hcard : (free cap v).card = 0 := by
    rw [Finset.card_eq_zero, Finset.eq_empty_iff_forall_notMem]
    exact fun i hi => hfree i (mem_free.mp hi)
  exact settle_of_settled (.inr hcard) k

/-- With no coordinate above the tolerance the result is decided by the clipped vector alone. -/
theorem projectWeights_low (hn : 0 < n) (hcap : 0 < cap) (hnc : 1 ≤ n * cap)
    (hclose : ¬ isCloseToOne (∑ i, clip cap w i)) (hlow : ∀ i, clip cap w i ≤ 1e-12) :
    ∃ v, projectWeights w cap defaultMaxIter = some v ∧
      ((∀ i, v i ≤ cap + 1e-9) ↔ ∀ i, clip cap w i ≤ (cap + 1e-9) * ∑ j, clip cap w j) := by
  have hbox := clip_inBox hcap.le w
  have hs := settle_of_no_free
    (fun i (hi : isFree cap _) => absurd hi.1 (by rw [zero_add]; exact not_lt.mpr (hlow i)))
    defaultMaxIter
  by_cases hpos : 0 < ∑ i, clip cap w i
  · refine ⟨_, projectWeights_of_settle hclose hs hpos, ?_⟩
    exact forall_congr' fun i => div_le_iff₀ hpos
  have hzero : ∀ i, clip cap w i = 0 := by
    have h := le_antisymm (not_lt.mp hpos) (Finset.sum_nonneg fun i _ => (hbox i).1)
    exact fun i =>
      (Finset.sum_eq_zero_iff_of_nonneg fun i _ => (hbox i).1).mp h i (Finset.mem_univ i)
  refine ⟨fun _ => 1 / n, ?_, iff_of_true (fun _ => ?_) fun i => ?_⟩
  · unfold projectWeights
    rw [if_neg hclose, hs, Option.bind_eq_bind, Option.bind_some, if_pos (not_lt.mp hpos),
      (uniform_spec hn).1]
  · have hn' : (0 : ℝ) < n := Nat.cast_pos.mpr hn
    have : 1 / (n : ℝ) ≤ cap := by rw [div_le_iff₀ hn']; linarith
    linarith
  · rw [hzero i, Finset.sum_eq_zero fun j _ => hzero j, mul_zero]

/-! ## Every vector -/

/-- A vector with one coordinate above zero, at one half, gets the whole weight there. -/
theorem projectWeights_single (hcap : 0 < cap) (i₀ : Fin n) :
    ∃ v, projectWeights (fun i => if i = i₀ then 1 / 2 else 0) cap defaultMaxIter = some v ∧
      v i₀ = 1 := by
  set w : Fin n → ℝ := fun i => if i = i₀ then 1 / 2 else 0 with hw
  have hself : clip cap w i₀ = min (1 / 2) cap := by
    unfold clip; rw [hw]; dsimp only; rw [if_pos rfl, max_eq_left (by norm_num)]
  have hother : ∀ i, i ≠ i₀ → clip cap w i = 0 := by
    intro i hi
    unfold clip; rw [hw]; dsimp only; rw [if_neg hi, max_self, min_eq_left hcap.le]
  have hsum : ∑ i, clip cap w i = min (1 / 2) cap := by
    rw [Finset.sum_eq_single i₀ (fun i _ hi => hother i hi) (by simp), hself]
  have hhalf : min (1 / 2) cap ≤ 1 / 2 := min_le_left _ _
  have hclose : ¬ isCloseToOne (∑ i, clip cap w i) := by
    rw [isCloseToOne_iff, hsum, abs_le]
    rintro ⟨h, _⟩
    norm_num at h
    linarith
  obtain ⟨_, v', hs, hr, _⟩ := settle_rule cap
    (fun j x => Rising cap (clip cap w) defaultMaxIter j x) (fun _ _ h _ hc => h.spread hc)
    defaultMaxIter _ (Rising.start (clip_inBox hcap.le w) (by rw [hsum]; linarith) _)
  have hv0 : ∀ i, i ≠ i₀ → v' i = 0 := by
    intro i hi
    rw [hr.low i (by rw [hother i hi]; norm_num), hother i hi]
  have hvs : ∑ i, v' i = v' i₀ :=
    Finset.sum_eq_single i₀ (fun i _ hi => hv0 i hi) (by simp)
  have hpos : 0 < v' i₀ := by
    have h := hr.above i₀
    rw [hself] at h
    exact (lt_min (by norm_num) hcap).trans_le h
  refine ⟨_, projectWeights_of_settle hclose hs (by rw [hvs]; exact hpos), ?_⟩
  show v' i₀ / ∑ j, v' j = 1
  rw [hvs, div_self hpos.ne']

/-- No weight that the allocator computes is above the cap, whatever its inputs. -/
def CapRespected (n : ℕ) (cap : ℝ) : Prop :=
  (∀ w v : Fin n → ℝ, projectWeights w cap defaultMaxIter = some v → ∀ i, v i ≤ cap + 1e-9) ∧
  (∀ (vols : Fin n → Flt ℝ) v, inverseVolWeights vols cap = some v → ∀ i, v i ≤ cap + 1e-9) ∧
  (∀ (mu : Fin n → ℝ) cov maxIters stepSize v,
    optimizeSharpeProxy Real.sqrt mu cov cap maxIters stepSize = some v → ∀ i, v i ≤ cap + 1e-9) ∧
  (∀ (mu : Fin n → ℝ) cov vols maxIters stepSize v,
    finalWeights Real.sqrt mu cov vols cap maxIters stepSize = some v → ∀ i, v i ≤ cap + 1e-9)

theorem le_one_of_sum_eq (h0 : ∀ i, 0 ≤ v i) (h1 : ∑ i, v i = 1) (i : Fin n) : v i ≤ 1 := by
  rw [← h1]
  exact Finset.single_le_sum (fun j _ => h0 j) (Finset.mem_univ i)

theorem le_cap_of_sum_eq (hle : 1 - 1e-9 ≤ cap) (h0 : ∀ i, 0 ≤ v i) (h1 : ∑ i, v i = 1)
    (i : Fin n) : v i ≤ cap + 1e-9 := by
  have := le_one_of_sum_eq h0 h1 i
  linarith

/-- Under a cap that does not bind, the projection invests fully and keeps the cap. -/
theorem projectWeights_invested_le (hn : 0 < n) (hcap : 0 < cap) (hle : 1 - 1e-9 ≤ cap)
    (w : Fin n → ℝ) :
    ∃ v, projectWeights w cap defaultMaxIter = some v ∧
      (Invested v ∧ ∀ i, v i ≤ cap + 1e-9) := by
  obtain ⟨v, hv, h0, ⟨hclose, rfl⟩ | h1⟩ := projectWeights_cases hn hcap.le w defaultMaxIter
  · refine ⟨_, hv, ⟨h0, (isCloseToOne_iff _).mp hclose⟩, fun i => ?_⟩
    have := (clip_inBox hcap.le w i).2
    linarith
  · exact ⟨v, hv, invested_of_sum_eq h0 h1, le_cap_of_sum_eq hle h0 h1⟩

theorem of_eq_some {α : Type*} {x : Option α} {P : α → Prop} (h : ∃ u, x = some u ∧ P u) {a : α}
    (ha : x = some a) : P a := by
  obtain ⟨u, hu, hP⟩ := h
  rw [hu] at ha
  exact Option.some.inj ha ▸ hP

theorem capRespected_of_le (hn : 0 < n) (hcap : 0 < cap) (hle : 1 - 1e-9 ≤ cap) :
    CapRespected n cap := by
  have hproj := @projectWeights_invested_le n cap hn hcap hle
  have hstart : Invested (fun _ : Fin n => 1 / (n : ℝ)) ∧ ∀ _i : Fin n, 1 / (n : ℝ) ≤ cap + 1e-9 :=
    ⟨uniform_invested hn,
      le_cap_of_sum_eq hle (fun _ => by positivity) (uniform_spec hn).2⟩
  have hopt : ∀ (mu : Fin n → ℝ) cov maxIters stepSize, ∃ v,
      optimizeSharpeProxy Real.sqrt mu cov cap maxIters stepSize = some v ∧
        (Invested v ∧ ∀ i, v i ≤ cap + 1e-9) := fun mu cov maxIters stepSize =>
    optimizeSharpeProxy_rule (fun _ => Real.sqrt_pos_of_pos) hn hproj hstart mu cov maxIters
      stepSize
  have hiv : ∀ vols : Fin n → Flt ℝ, ∃ v, inverseVolWeights vols cap = some v ∧
      (Invested v ∧ ∀ i, v i ≤ cap + 1e-9) := by
    intro vols
    obtain ⟨raw, hraw⟩ := inverseVolWeights_eq hn vols cap
    rw [hraw]
    exact hproj raw
  refine ⟨fun w v hv => (of_eq_some (hproj w) hv).2, fun vols v hv => (of_eq_some (hiv vols) hv).2,
    fun mu cov maxIters stepSize v hv => (of_eq_some (hopt mu cov maxIters stepSize) hv).2, ?_⟩
  intro mu cov vols maxIters stepSize v hv
  obtain ⟨a, ha, hai, hale⟩ := hopt mu cov maxIters stepSize
  obtain ⟨b, hb, hbi, _⟩ := hiv vols
  rw [finalWeights_eq ha hai.nonneg hb] at hv
  split_ifs at hv
  · exact Option.some.inj hv ▸ hale
  · obtain ⟨h0, h1⟩ := of_eq_some (blend_spec hai hbi) hv
    exact le_cap_of_sum_eq hle h0 h1

/-- The allocator respects a cap on every input exactly if the cap does not bind. -/
theorem capRespected_iff (hn : 0 < n) (hcap : 0 < cap) :
    CapRespected n cap ↔ 1 - 1e-9 ≤ cap := by
  refine ⟨fun h => ?_, capRespected_of_le hn hcap⟩
  obtain ⟨v, hv, h1⟩ := projectWeights_single hcap (⟨0, hn⟩ : Fin n)
  have := h.1 _ v hv ⟨0, hn⟩
  rw [h1] at this
  linarith

/-- **The weight cap.** Only a cap that does not bind is respected on every input. A single vector
is within the cap if clipping leaves it a sum close to 1 or the capacity to reach 1, up to the
tolerances; short of that capacity it exceeds the cap, and with no coordinate above the tolerance
the clipped vector decides. -/
theorem weight_cap (hn : 0 < n) (hcap : 0 < cap) (hcap1 : cap ≤ 1) (hnc : 1 ≤ n * cap) :
    (CapRespected n cap ↔ 1 - 1e-9 ≤ cap) ∧
    ((n : ℝ) ≤ 10 ^ 100 → ∀ w : Fin n → ℝ, ∃ v, projectWeights w cap defaultMaxIter = some v ∧
      (isCloseToOne (∑ i, clip cap w i) ∨ 1 ≤ capacity cap (clip cap w) ∨
        cap ≤ (cap + 1e-9) * (capacity cap (clip cap w) - n * 1e-12) → ∀ i, v i ≤ cap + 1e-9) ∧
      (¬ isCloseToOne (∑ i, clip cap w i) → (∃ i, 1e-12 < clip cap w i) →
        (cap + 1e-9) * capacity cap (clip cap w) < cap - 1e-12 → ∃ i, cap + 1e-9 < v i) ∧
      (¬ isCloseToOne (∑ i, clip cap w i) → (∀ i, clip cap w i ≤ 1e-12) →
        ((∀ i, v i ≤ cap + 1e-9) ↔
          ∀ i, clip cap w i ≤ (cap + 1e-9) * ∑ j, clip cap w j))) := by
  refine ⟨capRespected_iff hn hcap, fun hn' w => ?_⟩
  obtain ⟨v, hv, _⟩ := projectWeights_invested hn hcap.le w defaultMaxIter
  refine ⟨v, hv, fun h => of_eq_some (projectWeights_le_cap hn' hcap hcap1 h) hv, ?_, ?_⟩
  · rintro hclose ⟨i, hi⟩ hlt
    have hgt : ∃ u, projectWeights w cap defaultMaxIter = some u ∧ cap + 1e-9 < u i :=
      projectWeights_gt_cap hn' hcap hcap1 hclose hi hlt
    exact ⟨i, of_eq_some hgt hv⟩
  · exact fun hclose hlow => of_eq_some (projectWeights_low hn hcap hnc hclose hlow) hv

/-- The default cap 0.6 with two assets. -/
theorem weight_cap_two_assets : ¬ CapRespected 2 (3 / 5) := by
  rw [(@weight_cap 2 (3 / 5) (by norm_num) (by norm_num) (by norm_num) (by norm_num)).1]
  norm_num

/-- One asset favoured over another gets the whole weight, past the cap of 0.6. -/
theorem projectWeights_exceeds_cap :
    (1 : ℝ) ≤ 2 * (3 / 5) ∧
      ∃ v, projectWeights ![(1 : ℝ), 0] (3 / 5) defaultMaxIter = some v ∧
        ¬ ∀ i, v i ≤ 3 / 5 + 1e-9 := by
  have hclip : clip (3 / 5 : ℝ) ![1, 0] = ![3 / 5, 0] := by
    funext i
    fin_cases i <;> simp [clip] <;> norm_num
  have hsum : ∑ i, clip (3 / 5 : ℝ) ![1, 0] i = 3 / 5 := by rw [hclip, Fin.sum_univ_two]; simp
  have hs : settle (3 / 5 : ℝ) defaultMaxIter (clip (3 / 5) ![1, 0]) =
      some (clip (3 / 5) ![1, 0]) := by
    refine settle_of_no_free (fun i => ?_) _
    rw [hclip]
    fin_cases i <;> simp [isFree] <;> norm_num
  refine ⟨by norm_num, _, projectWeights_of_settle ?_ hs (by rw [hsum]; norm_num), fun h => ?_⟩
  · rw [isCloseToOne_iff, hsum]
    norm_num [abs_of_nonpos]
  · have h0 := h 0
    rw [hsum, hclip] at h0
    norm_num at h0

end PortfolioEngine.Allocator
