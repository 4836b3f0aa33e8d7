import Mathlib.Algebra.BigOperators.Field
import Mathlib.Algebra.BigOperators.Fin
import Mathlib.Algebra.Order.BigOperators.Group.Finset
import Mathlib.Algebra.Order.Field.Basic
import Mathlib.Tactic.FieldSimp
import Mathlib.Tactic.GCongr
import Mathlib.Tactic.Linarith
import Mathlib.Tactic.NormNum
import Mathlib.Tactic.Positivity
import PortfolioEngine.Lib.ExactFloat

/-!
# Projection onto the capped simplex

`_project_weights` of `allocator.py`: clip into the box `[0, cap]`, spread what is missing to 1
evenly over the coordinates strictly between the bounds until nothing is missing or no such
coordinate is left, then divide by the sum.

1. `settle_spec`: the rounds never divide by zero and stay in the box.
2. `settle_up_spec`: starting below 1, the rounds raise the free coordinates only and stop with
   the whole weight placed or with no free coordinate left.
3. `Capacity`: what the coordinates that clipping leaves above the tolerance can carry.
-/

namespace PortfolioEngine.Allocator

variable {K : Type*} [Field K] [LinearOrder K] {n : ℕ}

/-! ## The code -/

/-- `np.clip(weights, 0, cap)`. -/
def clip (cap : K) (w : Fin n → K) : Fin n → K := fun i => min (max (w i) 0) cap

/-- `np.isclose(x, 1.0)` with NumPy's default tolerances. -/
def isCloseToOne (x : K) : Prop := |x - 1| ≤ 1e-8 + 1e-5 * |1|

instance (x : K) : Decidable (isCloseToOne x) := by unfold isCloseToOne; infer_instance

/-- Strictly between the bounds, with the tolerance of the code. -/
def isFree (cap x : K) : Prop := 0 + 1e-12 < x ∧ x < cap - 1e-12

instance (cap x : K) : Decidable (isFree cap x) := by unfold isFree; infer_instance

/-- The mask `free`. -/
def free (cap : K) (v : Fin n → K) : Finset (Fin n) := Finset.univ.filter fun i => isFree cap (v i)

/-- `v[free] += delta` followed by the clip. -/
def spread (cap delta : K) (v : Fin n → K) : Fin n → K :=
  clip cap fun i => if isFree cap (v i) then v i + delta else v i

/-- The loop of `_project_weights`, with `k` rounds left. -/
def settle (cap : K) : ℕ → (Fin n → K) → Option (Fin n → K)
  | 0, v => some v
  | k + 1, v =>
    let diff := 1 - ∑ i, v i
    if |diff| < 1e-10 then some v
    else
      let count := (free cap v).card
      if count = 0 then some v
      else do
        let delta ← divide diff (count : K)
        settle cap k (spread cap delta v)

/-- `np.full(n, 1.0 / n)`. -/
def uniform (n : ℕ) : Option (Fin n → K) := do
  let x ← divide 1 (n : K)
  some fun _ => x

/-- `_project_weights`. -/
def projectWeights (weights : Fin n → K) (cap : K) (maxIter : ℕ) : Option (Fin n → K) := do
  let v := clip cap weights
  if isCloseToOne (∑ i, v i) then some v
  else
    let v ← settle cap maxIter v
    let total := ∑ i, v i
    if total ≤ 0 then uniform n
    else divideAll v total

/-- The default of `max_iter`. -/
def defaultMaxIter : ℕ := 200

example : projectWeights ![(1 / 2 : ℚ), 1, 0] (3 / 5) defaultMaxIter = some ![2 / 5, 3 / 5, 0] := by
  decide +kernel

/-! ## Rounds -/

/-- A test of the loop holds: the weight is placed, or no coordinate is free. -/
def Settled (cap : K) (v : Fin n → K) : Prop := |1 - ∑ i, v i| < 1e-10 ∨ (free cap v).card = 0

/-- Every coordinate is between the bounds. -/
def InBox (cap : K) (v : Fin n → K) : Prop := ∀ i, 0 ≤ v i ∧ v i ≤ cap

/-- What a coordinate above the tolerance may grow to; the others keep their value. -/
def capacity (cap : K) (v : Fin n → K) : K := ∑ i, if 1e-12 < v i then cap else v i

theorem mem_free {cap : K} {v : Fin n → K} {i : Fin n} : i ∈ free cap v ↔ isFree cap (v i) := by
  unfold free; simp

theorem settle_of_settled {cap : K} {v : Fin n → K} (h : Settled cap v) (k : ℕ) :
    settle cap k v = some v := by
  cases k with
  | zero => rfl
  | succ k =>
    unfold settle
    by_cases hdiff : |1 - ∑ i, v i| < 1e-10
    · rw [if_pos hdiff]
    · rw [if_neg hdiff, if_pos (h.resolve_left hdiff)]

variable [IsStrictOrderedRing K]

theorem settle_succ {cap : K} {v : Fin n → K} (h : ¬Settled cap v) (k : ℕ) :
    settle cap (k + 1) v =
      settle cap k (spread cap ((1 - ∑ i, v i) / ((free cap v).card : K)) v) := by
  obtain ⟨hdiff, hcount⟩ := not_or.mp h
  have hne : ((free cap v).card : K) ≠ 0 := Nat.cast_ne_zero.mpr hcount
  rw [settle, if_neg hdiff, if_neg hcount, divide_eq_some hne]
  rfl

/-- The rule of the loop: what every round preserves holds when it stops, and it stops by one of
its tests or with no rounds left. -/
theorem settle_rule (cap : K) (P : ℕ → (Fin n → K) → Prop)
    (hstep : ∀ k v, P (k + 1) v → 1e-10 ≤ |1 - ∑ i, v i| → (free cap v).card ≠ 0 →
      P k (spread cap ((1 - ∑ i, v i) / ((free cap v).card : K)) v)) :
    ∀ k v, P k v → ∃ j v', settle cap k v = some v' ∧ P j v' ∧ (Settled cap v' ∨ j = 0) := by
  intro k
  induction k with
  | zero => intro v hv; exact ⟨0, v, rfl, hv, Or.inr rfl⟩
  | succ k ih =>
    intro v hv
    by_cases hend : Settled cap v
    · exact ⟨k + 1, v, settle_of_settled hend _, hv, Or.inl hend⟩
    · obtain ⟨hdiff, hcount⟩ := not_or.mp hend
      rw [settle_succ hend]
      exact ih _ (hstep k v hv (not_lt.mp hdiff) hcount)

omit [IsStrictOrderedRing K] in
theorem clip_inBox {cap : K} (hcap : 0 ≤ cap) (w : Fin n → K) : InBox cap (clip cap w) :=
  fun _ => ⟨le_min (le_max_right _ _) hcap, min_le_right _ _⟩

omit [IsStrictOrderedRing K] in
theorem spread_apply (cap delta : K) (v : Fin n → K) (i : Fin n) :
    spread cap delta v i =
      min (max (if isFree cap (v i) then v i + delta else v i) 0) cap := rfl

omit [IsStrictOrderedRing K] in
theorem spread_of_not_free {cap delta : K} {v : Fin n → K} (hv : InBox cap v)
    {i : Fin n} (hi : i ∉ free cap v) : spread cap delta v i = v i := by
  have hf : ¬ isFree cap (v i) := fun h => hi (mem_free.mpr h)
  rw [spread_apply, if_neg hf, max_eq_left (hv i).1, min_eq_left (hv i).2]

theorem spread_of_free {cap delta : K} {v : Fin n → K} (hd : 0 ≤ delta) {i : Fin n}
    (hi : i ∈ free cap v) : spread cap delta v i = min (v i + delta) cap := by
  have hf := mem_free.mp hi
  have h0 : 0 ≤ v i + delta := by
    have h1 : (0 : K) < 1e-12 := by norm_num
    linarith [hf.1]
  rw [spread_apply, if_pos hf, max_eq_left h0]

/-- The rounds never divide by zero and stay in the box. -/
theorem settle_spec {cap : K} (hcap : 0 ≤ cap) (k : ℕ) {v : Fin n → K} (hv : InBox cap v) :
    ∃ v', settle cap k v = some v' ∧ InBox cap v' := by
  obtain ⟨_, v', hs, hbox, _⟩ := settle_rule cap (fun _ v => InBox cap v)
    (fun _ v _ _ _ => clip_inBox hcap _) k v hv
  exact ⟨v', hs, hbox⟩

/-! ## Raising -/

section Raise

variable {cap delta : K} {v : Fin n → K}

/-- The free coordinates that `delta` would carry past the cap. -/
def capped (cap delta : K) (v : Fin n → K) : Finset (Fin n) :=
  (free cap v).filter fun i => cap < v i + delta

omit [IsStrictOrderedRing K] in
theorem mem_capped {i : Fin n} : i ∈ capped cap delta v ↔ i ∈ free cap v ∧ cap < v i + delta := by
  unfold capped; exact Finset.mem_filter

theorem lt_cap_of_mem_free {i : Fin n} (hi : i ∈ free cap v) : v i < cap := by
  have h := (mem_free.mp hi).2
  have h1 : (0 : K) < 1e-12 := by norm_num
  linarith

/-- A round lifts the sum by `delta` for each free coordinate, less what the cap cuts off. -/
theorem sum_spread (hv : InBox cap v) (hd : 0 ≤ delta) :
    ∑ i, spread cap delta v i = ∑ i, v i + (free cap v).card * delta -
      ∑ i ∈ capped cap delta v, (v i + delta - cap) := by
  have hpt : ∀ i, spread cap delta v i = v i + (if i ∈ free cap v then delta else 0) -
      (if i ∈ capped cap delta v then v i + delta - cap else 0) := by
    intro i
    by_cases hi : i ∈ free cap v
    · rw [spread_of_free hd hi, if_pos hi]
      by_cases hc : cap < v i + delta
      · rw [if_pos (mem_capped.mpr ⟨hi, hc⟩), min_eq_right hc.le]; ring
      · rw [if_neg (fun h => hc (mem_capped.mp h).2), min_eq_left (not_lt.mp hc)]; ring
    · rw [spread_of_not_free hv hi, if_neg hi, if_neg (fun h => hi (mem_capped.mp h).1)]; ring
  rw [Finset.sum_congr rfl fun i _ => hpt i, Finset.sum_sub_distrib, Finset.sum_add_distrib,
    Finset.sum_ite_mem, Finset.sum_ite_mem, Finset.univ_inter, Finset.univ_inter,
    Finset.sum_const, nsmul_eq_mul]

theorem le_spread (hv : InBox cap v) (hd : 0 ≤ delta) (i : Fin n) : v i ≤ spread cap delta v i := by
  by_cases hi : i ∈ free cap v
  · rw [spread_of_free hd hi]
    exact le_min (by linarith) (hv i).2
  · rw [spread_of_not_free hv hi]

/-- A capped coordinate is never free again, and no other coordinate becomes free. -/
theorem free_spread_subset (hv : InBox cap v) (hd : 0 ≤ delta) :
    free cap (spread cap delta v) ⊆ free cap v \ capped cap delta v := by
  intro i hi
  by_cases hf : i ∈ free cap v
  · refine Finset.mem_sdiff.mpr ⟨hf, fun hc => ?_⟩
    have hcap := lt_cap_of_mem_free hi
    rw [spread_of_free hd hf, min_eq_right (mem_capped.mp hc).2.le] at hcap
    exact lt_irrefl _ hcap
  · have h := mem_free.mp hi
    rw [spread_of_not_free hv hf] at h
    exact absurd (mem_free.mpr h) hf

theorem card_free_spread (hv : InBox cap v) (hd : 0 ≤ delta) :
    (free cap (spread cap delta v)).card + (capped cap delta v).card ≤ (free cap v).card := by
  have hsub : capped cap delta v ⊆ free cap v := Finset.filter_subset _ _
  have h := Finset.card_le_card (free_spread_subset hv hd)
  rw [Finset.card_sdiff_of_subset hsub] at h
  have := Finset.card_le_card hsub
  omega

theorem residual_spread (hv : InBox cap v) (hsum : ∑ i, v i ≤ 1) (hc : (free cap v).card ≠ 0)
    (hdelta : delta = (1 - ∑ i, v i) / ((free cap v).card : K)) :
    1 - ∑ i, spread cap delta v i = ∑ i ∈ capped cap delta v, (v i + delta - cap) := by
  have hne : ((free cap v).card : K) ≠ 0 := Nat.cast_ne_zero.mpr hc
  have hd : 0 ≤ delta := by
    rw [hdelta]; exact div_nonneg (by linarith) (Nat.cast_nonneg _)
  have hmul : ((free cap v).card : K) * delta = 1 - ∑ i, v i := by
    rw [hdelta, mul_div_cancel₀ _ hne]
  rw [sum_spread hv hd, hmul]
  ring

omit [IsStrictOrderedRing K] in
theorem cut_nonneg [AddLeftMono K] (cap delta : K) (v : Fin n → K) :
    0 ≤ ∑ i ∈ capped cap delta v, (v i + delta - cap) :=
  Finset.sum_nonneg fun _ hi => sub_nonneg.mpr (mem_capped.mp hi).2.le

theorem cut_le (cap delta : K) (v : Fin n → K) :
    ∑ i ∈ capped cap delta v, (v i + delta - cap) ≤ (capped cap delta v).card * delta := by
  rw [← nsmul_eq_mul]
  refine Finset.sum_le_card_nsmul _ _ _ fun i hi => ?_
  have := lt_cap_of_mem_free (mem_capped.mp hi).1
  linarith

/-- Each round divides by four the product of the weight still to be placed and the number of
coordinates that can take it. -/
theorem potential_spread (hv : InBox cap v) (hsum : ∑ i, v i ≤ 1) (hc : (free cap v).card ≠ 0)
    (hdelta : delta = (1 - ∑ i, v i) / ((free cap v).card : K)) :
    (1 - ∑ i, spread cap delta v i) * ((free cap (spread cap delta v)).card : K) * 4 ≤
      (1 - ∑ i, v i) * ((free cap v).card : K) := by
  set c : K := ((free cap v).card : K) with hcdef
  set m : K := ((capped cap delta v).card : K) with hmdef
  have hcpos : 0 < c := by rw [hcdef]; exact_mod_cast Nat.pos_of_ne_zero hc
  have hd : 0 ≤ delta := by rw [hdelta]; exact div_nonneg (by linarith) hcpos.le
  have hres : 1 - ∑ i, v i = c * delta := by
    rw [hdelta, mul_div_cancel₀ _ hcpos.ne']
  have hm : 0 ≤ m := Nat.cast_nonneg _
  have hcard : ((free cap (spread cap delta v)).card : K) ≤ c - m := by
    have h := card_free_spread hv hd
    have h' : ((free cap (spread cap delta v)).card : K) + m ≤ c := by
      rw [hmdef, hcdef]; exact_mod_cast h
    linarith
  have hcut := cut_le cap delta v
  rw [residual_spread hv hsum hc hdelta, hres]
  have hprod := mul_le_mul hcut hcard (Nat.cast_nonneg _) (mul_nonneg hm hd)
  calc _ ≤ m * delta * (c - m) * 4 := mul_le_mul_of_nonneg_right hprod (by norm_num)
    _ ≤ c * delta * c := by nlinarith [mul_nonneg hd (sq_nonneg (c - 2 * m))]

/-- The state of the loop while it raises, `j` of `N` rounds left: nothing falls, what is within
the tolerance of zero stays, and the potential has shrunk by four a round. -/
structure Rising (cap : K) (v₀ : Fin n → K) (N j : ℕ) (v : Fin n → K) : Prop where
  inBox : InBox cap v
  sum_le : ∑ i, v i ≤ 1
  above : ∀ i, v₀ i ≤ v i
  low : ∀ i, v₀ i ≤ 1e-12 → v i = v₀ i
  potential : (1 - ∑ i, v i) * ((free cap v).card : K) * 4 ^ N ≤ n * 4 ^ j

theorem Rising.start (hv : InBox cap v) (hsum : ∑ i, v i ≤ 1) (N : ℕ) :
    Rising cap v N N v where
  inBox := hv
  sum_le := hsum
  above _ := le_rfl
  low _ _ := rfl
  potential := by
    have h0 : 0 ≤ ∑ i, v i := Finset.sum_nonneg fun i _ => (hv i).1
    have hcard : ((free cap v).card : K) ≤ n := by
      have := Finset.card_le_univ (free cap v)
      rw [Fintype.card_fin] at this
      exact_mod_cast this
    have hc0 : (0 : K) ≤ ((free cap v).card : K) := Nat.cast_nonneg _
    gcongr
    nlinarith

theorem Rising.spread {v₀ : Fin n → K} {N j : ℕ} (h : Rising cap v₀ N (j + 1) v)
    (hc : (free cap v).card ≠ 0) :
    Rising cap v₀ N j (spread cap ((1 - ∑ i, v i) / ((free cap v).card : K)) v) := by
  have hcpos : (0 : K) < ((free cap v).card : K) := by exact_mod_cast Nat.pos_of_ne_zero hc
  have hd : 0 ≤ (1 - ∑ i, v i) / ((free cap v).card : K) :=
    div_nonneg (by linarith [h.sum_le]) hcpos.le
  have hcap : 0 ≤ cap := by
    obtain ⟨i, _⟩ := Finset.card_ne_zero.mp hc
    exact (h.inBox i).1.trans (h.inBox i).2
  refine ⟨clip_inBox hcap _, ?_, fun i => (h.above i).trans (le_spread h.inBox hd i), ?_, ?_⟩
  · have h1 := residual_spread h.inBox h.sum_le hc rfl
    have h2 := cut_nonneg cap ((1 - ∑ i, v i) / ((free cap v).card : K)) v
    linarith
  · intro i hi
    have hv := h.low i hi
    rw [spread_of_not_free h.inBox, hv]
    intro hf
    have := (mem_free.mp hf).1
    rw [hv] at this
    linarith
  · have h1 := potential_spread h.inBox h.sum_le hc rfl
    have h2 := h.potential
    have h3 : (0 : K) < 4 ^ N := by positivity
    rw [pow_succ] at h2
    nlinarith [mul_le_mul_of_nonneg_right h1 h3.le]

/-- With no rounds left the weight is placed or no coordinate is free: 200 rounds suffice for any
number of coordinates up to `10 ^ 100`. -/
theorem Rising.settled {v₀ : Fin n → K} (hn : (n : K) ≤ 10 ^ 100)
    (h : Rising cap v₀ defaultMaxIter 0 v) : Settled cap v := by
  by_cases hc : (free cap v).card = 0
  · exact Or.inr hc
  left
  have hc1 : (1 : K) ≤ ((free cap v).card : K) := by exact_mod_cast Nat.one_le_iff_ne_zero.mpr hc
  have hres : 0 ≤ 1 - ∑ i, v i := by linarith [h.sum_le]
  rw [abs_of_nonneg hres]
  have h4 : (10 : K) ^ 100 < 1e-10 * 4 ^ defaultMaxIter := by unfold defaultMaxIter; norm_num
  have hpot : (1 - ∑ i, v i) * 4 ^ defaultMaxIter ≤ 10 ^ 100 :=
    calc (1 - ∑ i, v i) * 4 ^ defaultMaxIter
        ≤ (1 - ∑ i, v i) * ((free cap v).card : K) * 4 ^ defaultMaxIter := by
          gcongr; exact le_mul_of_one_le_right hres hc1
      _ ≤ n * 4 ^ 0 := h.potential
      _ ≤ 10 ^ 100 := by rw [pow_zero, mul_one]; exact hn
  exact lt_of_mul_lt_mul_right (hpot.trans_lt h4) (by positivity)

/-- From below 1 the rounds place the whole weight or leave no free coordinate. -/
theorem settle_up_spec (hn : (n : K) ≤ 10 ^ 100) (hv : InBox cap v) (hsum : ∑ i, v i ≤ 1) :
    ∃ j v', settle cap defaultMaxIter v = some v' ∧ Rising cap v defaultMaxIter j v' ∧
      Settled cap v' := by
  obtain ⟨j, v', hs, hr, hend⟩ := settle_rule cap
    (fun j x => Rising cap v defaultMaxIter j x) (fun _ _ h _ hc => h.spread hc)
    defaultMaxIter v (Rising.start hv hsum _)
  rcases hend with hend | rfl
  · exact ⟨j, v', hs, hr, hend⟩
  · exact ⟨0, v', hs, hr, hr.settled hn⟩

end Raise

/-! ## What the projection returns -/

/-- Long-only and fully invested, up to the tolerance of `np.isclose`. -/
structure Invested (v : Fin n → K) : Prop where
  nonneg : ∀ i, 0 ≤ v i
  sum_close : |∑ i, v i - 1| ≤ 1e-5 + 1e-8

theorem invested_of_sum_eq {v : Fin n → K} (h0 : ∀ i, 0 ≤ v i) (h1 : ∑ i, v i = 1) :
    Invested v := by
  refine ⟨h0, ?_⟩
  rw [h1, sub_self, abs_zero]
  norm_num

theorem Invested.sum_pos {v : Fin n → K} (h : Invested v) : 0 < ∑ i, v i := by
  have h1 := (abs_le.mp h.sum_close).1
  have h2 : (1e-5 + 1e-8 : K) < 1 := by norm_num
  linarith

theorem isCloseToOne_iff (x : K) : isCloseToOne x ↔ |x - 1| ≤ 1e-5 + 1e-8 := by
  unfold isCloseToOne
  rw [abs_one, mul_one, add_comm]

theorem normalized {v : Fin n → K} (h0 : ∀ i, 0 ≤ v i) (h1 : 0 < ∑ i, v i) :
    divideAll v (∑ i, v i) = some (fun i => v i / ∑ j, v j) ∧
      (∀ i, 0 ≤ v i / ∑ j, v j) ∧ ∑ i, v i / ∑ j, v j = 1 := by
  refine ⟨divideAll_eq_some h1.ne' v, fun i => div_nonneg (h0 i) h1.le, ?_⟩
  rw [← Finset.sum_div, div_self h1.ne']

theorem uniform_spec (hn : 0 < n) :
    uniform n = some (fun _ : Fin n => (1 : K) / n) ∧ ∑ _i : Fin n, (1 : K) / n = 1 := by
  have hne : (n : K) ≠ 0 := Nat.cast_ne_zero.mpr hn.ne'
  constructor
  · unfold uniform; rw [divide_eq_some hne]; rfl
  · rw [Finset.sum_const, Finset.card_univ, Fintype.card_fin, nsmul_eq_mul,
      mul_one_div_cancel hne]

/-- The exits of `_project_weights`: the clipped vector where it already sums to 1, and otherwise
a nonnegative vector that sums to 1 exactly. -/
theorem projectWeights_cases (hn : 0 < n) {cap : K} (hcap : 0 ≤ cap) (w : Fin n → K) (k : ℕ) :
    ∃ v, projectWeights w cap k = some v ∧ (∀ i, 0 ≤ v i) ∧
      (isCloseToOne (∑ i, clip cap w i) ∧ v = clip cap w ∨ ∑ i, v i = 1) := by
  have hbox := clip_inBox hcap w
  by_cases hclose : isCloseToOne (∑ i, clip cap w i)
  · exact ⟨clip cap w, by unfold projectWeights; rw [if_pos hclose], fun i => (hbox i).1,
      Or.inl ⟨hclose, rfl⟩⟩
  obtain ⟨v, hs, hv⟩ := settle_spec hcap k hbox
  have hw : projectWeights w cap k =
      if ∑ i, v i ≤ 0 then uniform n else divideAll v (∑ i, v i) := by
    unfold projectWeights; rw [if_neg hclose, hs]; rfl
  by_cases htot : ∑ i, v i ≤ 0
  · obtain ⟨hu, hsum⟩ := uniform_spec (K := K) hn
    exact ⟨_, by rw [hw, if_pos htot, hu], fun i => by positivity, Or.inr hsum⟩
  · obtain ⟨hd, h0, h1⟩ := normalized (fun i => (hv i).1) (not_le.mp htot)
    exact ⟨_, by rw [hw, if_neg htot, hd], h0, Or.inr h1⟩

theorem projectWeights_invested (hn : 0 < n) {cap : K} (hcap : 0 ≤ cap) (w : Fin n → K) (k : ℕ) :
    ∃ v, projectWeights w cap k = some v ∧ Invested v := by
  obtain ⟨v, hv, h0, ⟨hclose, rfl⟩ | h1⟩ := projectWeights_cases hn hcap w k
  · exact ⟨_, hv, h0, (isCloseToOne_iff _).mp hclose⟩
  · exact ⟨v, hv, invested_of_sum_eq h0 h1⟩

end PortfolioEngine.Allocator
