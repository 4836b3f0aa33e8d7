import PortfolioEngine.Lib.Loops
import PortfolioEngine.Portfolio.Projection

/-!
# The rounds of the projection

How the loop of `_project_weights` ends. A round gives every free coordinate the same share of what
the sum misses, or has too much, and clips.

1. `sum_afterRound_eq_one_or_card_lt`: where the clip changes nothing the sum is 1, and otherwise it
   leaves a free coordinate at a bound.
2. `free_afterRound_subset`: a coordinate that is not free never is again.
3. `nearer_afterRound`: the sum comes nearer to 1 and stays on its side of it.

So the number of free coordinates ranks the loop (`redistribute_ranked`), whatever the sign of what
is missing, and `projection_rounds` bounds its passes.
-/

namespace PortfolioEngine.Allocator

open Loops

variable {K : Type*} [Field K] [LinearOrder K] {n : ℕ}

/-! ## The loop -/

/-- The two tests that leave the loop. -/
inductive Test where
  | placed
  | noFree
  deriving DecidableEq

/-- The body of the loop of `_project_weights`. -/
def redistribute (cap : K) (v : Fin n → K) : Option (Pass (Fin n → K) Test) :=
  let diff := 1 - ∑ i, v i
  if |diff| < 1e-10 then some (.stop .placed)
  else
    let count := (free cap v).card
    if count = 0 then some (.stop .noFree)
    else do
      let delta ← divide diff (count : K)
      some (.next (spread cap delta v))

/-- The vector of a round before the clip. -/
def shared (cap : K) (v : Fin n → K) : Fin n → K := fun i =>
  if isFree cap (v i) then v i + (1 - ∑ j, v j) / ((free cap v).card : K) else v i

/-- The vector after a round. -/
def afterRound (cap : K) (v : Fin n → K) : Fin n → K :=
  spread cap ((1 - ∑ i, v i) / ((free cap v).card : K)) v

variable {cap : K} {v v' : Fin n → K}

theorem redistribute_stop (h : Settled cap v) :
    ∃ test, redistribute cap v = some (.stop test) := by
  unfold redistribute
  by_cases hdiff : |1 - ∑ i, v i| < 1e-10
  · exact ⟨.placed, if_pos hdiff⟩
  · exact ⟨.noFree, by rw [if_neg hdiff, if_pos (h.resolve_left hdiff)]⟩

variable [IsStrictOrderedRing K]

theorem redistribute_next (h : ¬Settled cap v) :
    redistribute cap v = some (.next (afterRound cap v)) := by
  obtain ⟨hdiff, hcount⟩ := not_or.mp h
  have hne : ((free cap v).card : K) ≠ 0 := Nat.cast_ne_zero.mpr hcount
  unfold redistribute
  rw [if_neg hdiff, if_neg hcount, divide_eq_some hne]
  rfl

theorem eq_afterRound_of_next (h : redistribute cap v = some (.next v')) :
    ¬Settled cap v ∧ v' = afterRound cap v := by
  by_cases hs : Settled cap v
  · obtain ⟨test, hstop⟩ := redistribute_stop hs
    rw [hstop] at h; cases h
  · rw [redistribute_next hs] at h; cases h; exact ⟨hs, rfl⟩

theorem settled_of_stop {test : Test} (h : redistribute cap v = some (.stop test)) :
    Settled cap v := by
  by_contra hs
  rw [redistribute_next hs] at h; cases h

theorem settled_of_sum_eq_one (h : ∑ i, v i = 1) : Settled cap v := by
  left
  rw [h, sub_self, abs_zero]
  norm_num

theorem settle_eq_last (cap : K) (k : ℕ) (v : Fin n → K) :
    settle cap k v = (run (redistribute cap) k v).map Run.last := by
  induction k generalizing v with
  | zero => rfl
  | succ k ih =>
    by_cases hs : Settled cap v
    · obtain ⟨test, hstop⟩ := redistribute_stop hs
      rw [run_stop hstop, settle_of_settled hs]
      rfl
    · rw [run_next (redistribute_next hs), settle_succ hs, Option.map_map]
      exact ih (afterRound cap v)

/-! ## The clip -/

/-- A coordinate that the clip moves is at a bound afterwards, and so not free. -/
theorem notMem_free_clip {w : Fin n → K} {i : Fin n} (h : clip cap w i ≠ w i) :
    i ∉ free cap (clip cap w) := by
  have htol : (0 : K) < 1e-12 := by norm_num
  have hbound : clip cap w i = 0 ∨ clip cap w i = cap := by
    unfold clip at h ⊢
    rcases min_choice (max (w i) 0) cap with hmin | hmin
    · rw [hmin] at h ⊢
      exact .inl ((max_choice (w i) 0).resolve_left h)
    · exact .inr hmin
  intro hi
  obtain ⟨hlow, hhigh⟩ := mem_free.mp hi
  rcases hbound with hb | hb
  · rw [hb] at hlow; linarith
  · rw [hb] at hhigh; linarith

/-! ## A round -/

omit [IsStrictOrderedRing K] in
theorem shared_eq (cap : K) (v : Fin n → K) (i : Fin n) :
    shared cap v i =
      v i + if i ∈ free cap v then (1 - ∑ j, v j) / ((free cap v).card : K) else 0 := by
  unfold shared
  by_cases hi : i ∈ free cap v
  · rw [if_pos hi, if_pos (mem_free.mp hi)]
  · rw [if_neg hi, if_neg fun hf => hi (mem_free.mpr hf), add_zero]

omit [IsStrictOrderedRing K] in
theorem shared_of_not_free {i : Fin n} (hi : i ∉ free cap v) : shared cap v i = v i := by
  rw [shared_eq, if_neg hi, add_zero]

theorem sum_shared (hc : (free cap v).card ≠ 0) : ∑ i, shared cap v i = 1 := by
  have hne : ((free cap v).card : K) ≠ 0 := Nat.cast_ne_zero.mpr hc
  rw [Finset.sum_congr rfl fun i _ => shared_eq cap v i, Finset.sum_add_distrib,
    Finset.sum_ite_mem, Finset.univ_inter, Finset.sum_const, nsmul_eq_mul,
    mul_div_cancel₀ _ hne, add_sub_cancel]

omit [IsStrictOrderedRing K] in
theorem afterRound_of_not_free (hv : InBox cap v) {i : Fin n} (hi : i ∉ free cap v) :
    afterRound cap v i = v i :=
  spread_of_not_free hv hi

omit [IsStrictOrderedRing K] in
theorem free_afterRound_subset (hv : InBox cap v) : free cap (afterRound cap v) ⊆ free cap v := by
  intro i hi
  by_contra hnot
  have h := mem_free.mp hi
  rw [afterRound_of_not_free hv hnot] at h
  exact hnot (mem_free.mpr h)

/-- A round places the whole weight, or the clip stops a free coordinate for good. -/
theorem sum_afterRound_eq_one_or_card_lt (hv : InBox cap v) (hc : (free cap v).card ≠ 0) :
    ∑ i, afterRound cap v i = 1 ∨ (free cap (afterRound cap v)).card < (free cap v).card := by
  by_cases hall : ∀ i, afterRound cap v i = shared cap v i
  · left
    rw [Finset.sum_congr rfl fun i _ => hall i, sum_shared hc]
  right
  obtain ⟨i, hi⟩ := not_forall.mp hall
  have hfree : i ∈ free cap v := by
    by_contra hnot
    exact hi (by rw [afterRound_of_not_free hv hnot, shared_of_not_free hnot])
  have hstopped : i ∉ free cap (afterRound cap v) := notMem_free_clip hi
  exact Finset.card_lt_card
    (Finset.ssubset_iff_subset_ne.mpr
      ⟨free_afterRound_subset hv, fun heq => hstopped (heq ▸ hfree)⟩)

/-! ## The sum -/

/-- `y` is nearer to 1 than `x`, and on the same side. -/
def Nearer (x y : K) : Prop := x < y ∧ y ≤ 1 ∨ 1 ≤ y ∧ y < x

omit [IsStrictOrderedRing K] in
theorem Nearer.trans {x y z : K} (hxy : Nearer x y) (hyz : Nearer y z) : Nearer x z := by
  rcases hxy with ⟨hx, hy⟩ | ⟨hy, hx⟩
  · rcases hyz with ⟨hyz, hz⟩ | ⟨hz, hzy⟩
    · exact .inl ⟨hx.trans hyz, hz⟩
    · exact absurd hy (not_le.mpr (hz.trans_lt hzy))
  · rcases hyz with ⟨hyz, hz⟩ | ⟨hz, hzy⟩
    · exact absurd hy (not_le.mpr (hyz.trans_le hz))
    · exact .inr ⟨hz, hzy.trans hx⟩

theorem share_nonneg (hsum : ∑ i, v i ≤ 1) : 0 ≤ (1 - ∑ i, v i) / ((free cap v).card : K) :=
  div_nonneg (sub_nonneg.mpr hsum) (Nat.cast_nonneg _)

theorem share_nonpos (hsum : 1 ≤ ∑ i, v i) : (1 - ∑ i, v i) / ((free cap v).card : K) ≤ 0 :=
  div_nonpos_of_nonpos_of_nonneg (sub_nonpos.mpr hsum) (Nat.cast_nonneg _)

/-- Raising the free coordinates adds no more than what is missing. -/
theorem sum_afterRound_le_one (hv : InBox cap v) (hsum : ∑ i, v i ≤ 1)
    (hc : (free cap v).card ≠ 0) : ∑ i, afterRound cap v i ≤ 1 := by
  rw [← sum_shared hc]
  refine Finset.sum_le_sum fun i _ => ?_
  have h0 : 0 ≤ shared cap v i := by
    have hd : 0 ≤ (1 - ∑ i, v i) / ((free cap v).card : K) := share_nonneg hsum
    have hi := (hv i).1
    unfold shared
    split_ifs <;> linarith
  calc afterRound cap v i ≤ max (shared cap v i) 0 := min_le_left _ _
    _ = shared cap v i := max_eq_left h0

/-- Lowering the free coordinates takes no more than what is above 1. -/
theorem one_le_sum_afterRound (hv : InBox cap v) (hsum : 1 ≤ ∑ i, v i)
    (hc : (free cap v).card ≠ 0) : 1 ≤ ∑ i, afterRound cap v i := by
  rw [← sum_shared hc]
  refine Finset.sum_le_sum fun i _ => le_min (le_max_left _ _) ?_
  have hd : (1 - ∑ i, v i) / ((free cap v).card : K) ≤ 0 := share_nonpos hsum
  have hi := (hv i).2
  show shared cap v i ≤ cap
  unfold shared
  split_ifs <;> linarith

theorem lt_sum_afterRound (hv : InBox cap v) (hsum : ∑ i, v i < 1) (hc : (free cap v).card ≠ 0) :
    ∑ i, v i < ∑ i, afterRound cap v i := by
  have hcpos : (0 : K) < ((free cap v).card : K) := Nat.cast_pos.mpr (Nat.pos_of_ne_zero hc)
  have hd : 0 < (1 - ∑ i, v i) / ((free cap v).card : K) := div_pos (sub_pos.mpr hsum) hcpos
  obtain ⟨i, hi⟩ := Finset.card_ne_zero.mp hc
  refine Finset.sum_lt_sum (fun j _ => le_spread hv hd.le j) ⟨i, Finset.mem_univ i, ?_⟩
  show v i < spread cap _ v i
  rw [spread_of_free hd.le hi]
  exact lt_min (by linarith) (lt_cap_of_mem_free hi)

theorem sum_afterRound_lt (hv : InBox cap v) (hsum : 1 < ∑ i, v i) (hc : (free cap v).card ≠ 0) :
    ∑ i, afterRound cap v i < ∑ i, v i := by
  have hcpos : (0 : K) < ((free cap v).card : K) := Nat.cast_pos.mpr (Nat.pos_of_ne_zero hc)
  have hd : (1 - ∑ i, v i) / ((free cap v).card : K) < 0 :=
    div_neg_of_neg_of_pos (sub_neg.mpr hsum) hcpos
  have hlt : ∀ i ∈ free cap v, afterRound cap v i < v i := by
    intro i hi
    have htol : (0 : K) < 1e-12 := by norm_num
    have hf := mem_free.mp hi
    have h0 : 0 < v i := by linarith [hf.1]
    have hshared : shared cap v i < v i := by
      rw [shared_eq, if_pos hi]
      linarith
    exact (min_le_left _ _).trans_lt (max_lt hshared h0)
  obtain ⟨i, hi⟩ := Finset.card_ne_zero.mp hc
  refine Finset.sum_lt_sum (fun j _ => ?_) ⟨i, Finset.mem_univ i, hlt i hi⟩
  by_cases hj : j ∈ free cap v
  · exact (hlt j hj).le
  · rw [afterRound_of_not_free hv hj]

/-- A round brings the sum nearer to 1 and not past it. -/
theorem nearer_afterRound (hv : InBox cap v) (hs : ¬Settled cap v) :
    Nearer (∑ i, v i) (∑ i, afterRound cap v i) := by
  have hc : (free cap v).card ≠ 0 := (not_or.mp hs).2
  rcases lt_trichotomy (∑ i, v i) 1 with hlt | heq | hgt
  · exact .inl ⟨lt_sum_afterRound hv hlt hc, sum_afterRound_le_one hv hlt.le hc⟩
  · exact absurd (settled_of_sum_eq_one heq) hs
  · exact .inr ⟨one_le_sum_afterRound hv hgt.le hc, sum_afterRound_lt hv hgt hc⟩

/-! ## The loop ends -/

/-- The number of free coordinates ranks the loop. -/
theorem redistribute_ranked (hcap : 0 ≤ cap) :
    Ranked (redistribute cap) (InBox (n := n) cap) fun v => (free cap v).card where
  total v _ := by
    by_cases hs : Settled cap v
    · obtain ⟨test, hstop⟩ := redistribute_stop hs
      exact ⟨_, hstop⟩
    · exact ⟨_, redistribute_next hs⟩
  next v v' _ h := by
    obtain ⟨_, rfl⟩ := eq_afterRound_of_next h
    exact clip_inBox hcap _
  pos v v' _ h := Nat.pos_of_ne_zero (not_or.mp (eq_afterRound_of_next h).1).2
  drop v v' hv h := by
    obtain ⟨hs, rfl⟩ := eq_afterRound_of_next h
    rcases sum_afterRound_eq_one_or_card_lt hv (not_or.mp hs).2 with hone | hlt
    · exact .inr (redistribute_stop (settled_of_sum_eq_one hone))
    · exact .inl hlt

/-- How a vector of the loop stands to a later one. -/
structure Later (cap : K) (v v' : Fin n → K) : Prop where
  free_subset : free cap v' ⊆ free cap v
  nearer : Nearer (∑ i, v i) (∑ i, v' i)

instance : Trans (Later (n := n) cap) (Later cap) (Later cap) where
  trans h h' := ⟨h'.free_subset.trans h.free_subset, h.nearer.trans h'.nearer⟩

variable {k : ℕ} {r : Run (Fin n → K) Test}

theorem isChain_rounds (hcap : 0 ≤ cap) (hv : InBox cap v)
    (hr : run (redistribute cap) k v = some r) :
    r.states.IsChain fun x x' =>
      Later cap x x' ∧ (∑ i, x' i = 1 ∨ (free cap x').card < (free cap x).card) := by
  refine (isChain_states (redistribute_ranked hcap).next hv hr).imp fun x x' hx => ?_
  obtain ⟨hbox, hnext⟩ := hx
  obtain ⟨hs, rfl⟩ := eq_afterRound_of_next hnext
  exact ⟨⟨free_afterRound_subset hbox, nearer_afterRound hbox hs⟩,
    sum_afterRound_eq_one_or_card_lt hbox (not_or.mp hs).2⟩

theorem settled_last (hr : run (redistribute cap) k v = some r) (hbreak : r.reason.isSome) :
    Settled cap r.last := by
  obtain ⟨test, htest⟩ := Option.isSome_iff_exists.mp hbreak
  exact settled_of_stop (body_last hr htest)

theorem exists_rounds (hcap : 0 ≤ cap) (hv : InBox cap v) (k : ℕ) :
    ∃ r, run (redistribute cap) k v = some r ∧ r.passes ≤ n + 1 ∧
      (n < k → r.reason.isSome) := by
  have hcard : (free cap v).card ≤ n := card_finset_fin_le _
  obtain ⟨r, hr, hpasses, hbreak⟩ := (redistribute_ranked hcap).exists_run k hv
  exact ⟨r, hr, by omega, fun hk => hbreak (by omega)⟩

/-- **The projection loop ends by its own tests.** Each round places the whole weight or leaves
fewer coordinates free; none becomes free again, and the sum approaches 1 from one side. So the
loop begins at most `n + 1` passes, and below 199 coordinates it never uses up the default of
`max_iter`. -/
theorem projection_rounds (hcap : 0 < cap) (w : Fin n → K) :
    (∀ maxIter, ∃ r, run (redistribute cap) maxIter (clip cap w) = some r ∧
      settle cap maxIter (clip cap w) = some r.last ∧
      (r.states.IsChain fun v v' =>
        ∑ i, v' i = 1 ∨ (free cap v').card < (free cap v).card) ∧
      r.states.Pairwise (Later cap) ∧
      r.passes ≤ n + 1 ∧
      (n < maxIter → r.reason.isSome ∧ Settled cap r.last)) ∧
    (n < 199 → ∃ r, run (redistribute cap) defaultMaxIter (clip cap w) = some r ∧
      r.passes < defaultMaxIter ∧ r.reason.isSome) := by
  have hbox : InBox cap (clip cap w) := clip_inBox hcap.le w
  refine ⟨fun maxIter => ?_, fun hn => ?_⟩
  · obtain ⟨r, hr, hpasses, hbreak⟩ := exists_rounds hcap.le hbox maxIter
    have hchain := isChain_rounds hcap.le hbox hr
    refine ⟨r, hr, by rw [settle_eq_last, hr, Option.map_some], hchain.imp fun _ _ h => h.2, ?_,
      hpasses, fun hk => ⟨hbreak hk, settled_last hr (hbreak hk)⟩⟩
    exact List.isChain_iff_pairwise.mp (hchain.imp fun _ _ h => h.1)
  · obtain ⟨r, hr, hpasses, hbreak⟩ := exists_rounds hcap.le hbox defaultMaxIter
    have hdefault : defaultMaxIter = 200 := rfl
    exact ⟨r, hr, by omega, hbreak (by omega)⟩

/-- Three coordinates, the first of which a round stops at the cap. -/
theorem projection_rounds_three :
    ∃ r, run (redistribute (11 / 20 : ℚ)) defaultMaxIter
        (clip (11 / 20) ![1 / 2, 1 / 10, 1 / 10]) = some r ∧
      r.passes < defaultMaxIter ∧ r.reason.isSome :=
  (projection_rounds (by norm_num) _).2 (by norm_num)

end PortfolioEngine.Allocator
