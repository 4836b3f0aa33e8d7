import Mathlib.LinearAlgebra.Matrix.Reindex
import PortfolioEngine.Portfolio.Allocator

/-!
# The allocator under a reordering of the assets

Every function of the allocator treats the assets alike: reordering what it is given reorders what
it returns, through the gradient steps and the rounds of the projection.
-/

namespace PortfolioEngine.Allocator

open scoped Matrix

variable {K : Type*} [Field K] [LinearOrder K] {n : ℕ} (σ : Equiv.Perm (Fin n))

theorem bind_reorder {α β : Type*} {f g : (Fin n → α) → Option (Fin n → β)}
    (h : ∀ v, g (v ∘ σ) = (f v).map (· ∘ σ)) (x : Option (Fin n → α)) :
    (x.map (· ∘ σ)).bind g = (x.bind f).map (· ∘ σ) := by
  cases x with
  | none => rfl
  | some v => exact h v

/-! ## The projection -/

omit [LinearOrder K] in
theorem sum_reorder (v : Fin n → K) : ∑ i, (v ∘ σ) i = ∑ i, v i := Equiv.sum_comp σ v

theorem card_free_reorder (cap : K) (v : Fin n → K) :
    (free cap (v ∘ σ)).card = (free cap v).card := by
  refine Finset.card_equiv σ fun i => ?_
  rw [mem_free, mem_free]
  rfl

theorem settle_reorder (cap : K) (k : ℕ) (v : Fin n → K) :
    settle cap k (v ∘ σ) = (settle cap k v).map (· ∘ σ) := by
  induction k generalizing v with
  | zero => rfl
  | succ k ih =>
    unfold settle
    dsimp only
    rw [sum_reorder, card_free_reorder]
    split_ifs with hdiff hcount
    · rfl
    · rfl
    · cases divide (1 - ∑ i, v i) ((free cap v).card : K) with
      | none => rfl
      | some delta => exact ih (spread cap delta v)

omit [LinearOrder K] in
theorem divideAll_reorder [DecidableEq K] (v : Fin n → K) (b : K) :
    divideAll (v ∘ σ) b = (divideAll v b).map (· ∘ σ) := by
  unfold divideAll
  split_ifs <;> rfl

theorem uniform_reorder : (uniform n : Option (Fin n → K)) = (uniform n).map (· ∘ σ) := by
  unfold uniform
  cases divide (1 : K) (n : K) <;> rfl

theorem projectWeights_reorder (cap : K) (k : ℕ) (w : Fin n → K) :
    projectWeights (w ∘ σ) cap k = (projectWeights w cap k).map (· ∘ σ) := by
  have hclip : clip cap (w ∘ σ) = clip cap w ∘ σ := rfl
  unfold projectWeights
  dsimp only
  rw [hclip, sum_reorder]
  split_ifs with hclose
  · rfl
  · rw [settle_reorder]
    cases settle cap k (clip cap w) with
    | none => rfl
    | some v =>
      show (if ∑ i, (v ∘ σ) i ≤ 0 then uniform n else divideAll (v ∘ σ) (∑ i, (v ∘ σ) i)) =
        (if ∑ i, v i ≤ 0 then uniform n else divideAll v (∑ i, v i)).map (· ∘ σ)
      rw [sum_reorder, divideAll_reorder]
      split_ifs
      · exact uniform_reorder σ
      · rfl

/-! ## The optimizer -/

section Optimizer

variable (sqrt : K → K) (mu : Fin n → K) (cov : Matrix (Fin n) (Fin n) K)

omit [LinearOrder K] in
theorem dotProduct_reorder (v w : Fin n → K) : (v ∘ σ) ⬝ᵥ (w ∘ σ) = v ⬝ᵥ w :=
  comp_equiv_dotProduct_comp_equiv v w σ

omit [LinearOrder K] in
theorem mulVec_reorder (w : Fin n → K) :
    cov.submatrix σ σ *ᵥ (w ∘ σ) = (cov *ᵥ w) ∘ σ := by
  rw [Matrix.submatrix_mulVec_equiv]
  congr 2
  funext i
  simp

theorem gradient_reorder (w : Fin n → K) :
    gradient sqrt (mu ∘ σ) (cov.submatrix σ σ) (w ∘ σ) =
      (gradient sqrt mu cov w).map (· ∘ σ) := by
  unfold gradient
  dsimp only
  rw [mulVec_reorder, dotProduct_reorder, dotProduct_reorder, divideAll_reorder]
  cases divideAll mu (sqrt (max (w ⬝ᵥ (cov *ᵥ w)) 1e-16)) with
  | none => rfl
  | some muTerm =>
    simp only [Option.map_some, Option.bind_eq_bind, Option.bind_some]
    cases divide (mu ⬝ᵥ w) (sqrt (max (w ⬝ᵥ (cov *ᵥ w)) 1e-16) ^ 3) <;> rfl

theorem ascend_reorder (cap stepSize : K) (k : ℕ) (w : Fin n → K) :
    ascend sqrt (mu ∘ σ) (cov.submatrix σ σ) cap stepSize k (w ∘ σ) =
      (ascend sqrt mu cov cap stepSize k w).map (· ∘ σ) := by
  induction k generalizing w with
  | zero => rfl
  | succ k ih =>
    unfold ascend
    rw [gradient_reorder]
    refine bind_reorder σ (fun grad => ?_) _
    have hcandidate : (fun i => (w ∘ σ) i + stepSize * (grad ∘ σ) i) =
        (fun i => w i + stepSize * grad i) ∘ σ := rfl
    dsimp only
    rw [hcandidate, projectWeights_reorder]
    exact bind_reorder σ ih _

theorem optimizeSharpeProxy_reorder (cap : K) (maxIters : ℕ) (stepSize : K) :
    optimizeSharpeProxy sqrt (mu ∘ σ) (cov.submatrix σ σ) cap maxIters stepSize =
      (optimizeSharpeProxy sqrt mu cov cap maxIters stepSize).map (· ∘ σ) := by
  unfold optimizeSharpeProxy
  split_ifs
  · rfl
  · cases hu : (uniform n : Option (Fin n → K)) with
    | none => rfl
    | some w =>
      have hsame : w ∘ σ = w := by
        have h := uniform_reorder (K := K) σ
        rw [hu] at h
        exact (Option.some.inj h).symm
      simp only [Option.bind_eq_bind, Option.bind_some]
      rw [← ascend_reorder, hsame]

omit [LinearOrder K] in
theorem quadratic_reorder (w : Fin n → K) :
    (w ∘ σ) ⬝ᵥ (cov.submatrix σ σ *ᵥ (w ∘ σ)) = w ⬝ᵥ (cov *ᵥ w) := by
  rw [mulVec_reorder, dotProduct_reorder]

theorem portfolioVolatility_reorder (w : Fin n → K) :
    portfolioVolatility sqrt (w ∘ σ) (cov.submatrix σ σ) = portfolioVolatility sqrt w cov := by
  unfold portfolioVolatility
  rw [quadratic_reorder]

theorem sharpeProxy_reorder (w : Fin n → K) :
    sharpeProxy sqrt (w ∘ σ) (mu ∘ σ) (cov.submatrix σ σ) = sharpeProxy sqrt w mu cov := by
  unfold sharpeProxy
  rw [portfolioVolatility_reorder, dotProduct_reorder]

end Optimizer

/-! ## The final weights -/

omit [Field K] [LinearOrder K] in
theorem collect_reorder (f : Fin n → Option K) : collect (f ∘ σ) = (collect f).map (· ∘ σ) := by
  have hiff : (∀ i, ((f ∘ σ) i).isSome) ↔ ∀ i, (f i).isSome :=
    σ.forall_congr_right (q := fun i => (f i).isSome)
  unfold collect
  by_cases h : ∀ i, (f i).isSome
  · rw [dif_pos h, dif_pos (hiff.mpr h)]
    rfl
  · rw [dif_neg h, dif_neg fun hc => h (hiff.mp hc)]
    rfl

theorem inverseVolWeights_reorder (vols : Fin n → Flt K) (cap : K) :
    inverseVolWeights (vols ∘ σ) cap = (inverseVolWeights vols cap).map (· ∘ σ) := by
  have hcollect : (collect fun i => recip (safeVol ((vols ∘ σ) i))) =
      (collect fun i => recip (safeVol (vols i))).map (· ∘ σ) :=
    collect_reorder σ fun i => recip (safeVol (vols i))
  unfold inverseVolWeights
  rw [hcollect]
  refine bind_reorder σ (fun inv => ?_) _
  rw [sum_reorder]
  split_ifs
  · rw [divideAll_reorder]
    exact bind_reorder σ (fun raw => projectWeights_reorder σ cap defaultMaxIter raw) _
  · conv_lhs => rw [uniform_reorder σ]
    exact bind_reorder σ (fun raw => projectWeights_reorder σ cap defaultMaxIter raw) _

theorem guardOptimized_reorder (w : Fin n → K) :
    guardOptimized (w ∘ σ) = (guardOptimized w).map (· ∘ σ) := by
  have hiff : (∃ i, (w ∘ σ) i < -1e-12) ↔ ∃ i, w i < -1e-12 :=
    σ.exists_congr_right (q := fun i => w i < -1e-12)
  unfold guardOptimized
  by_cases h : ∃ i, w i < -1e-12
  · rw [if_pos h, if_pos (hiff.mpr h)]
    exact uniform_reorder σ
  · rw [if_neg h, if_neg fun hc => h (hiff.mp hc)]
    rfl

theorem blend_reorder (a b : Fin n → K) :
    blend (a ∘ σ) (b ∘ σ) = (blend a b).map (· ∘ σ) := by
  have hmix : (fun i => 0.5 * (a ∘ σ) i + 0.5 * (b ∘ σ) i) =
      (fun i => 0.5 * a i + 0.5 * b i) ∘ σ := rfl
  unfold blend
  dsimp only
  rw [hmix, sum_reorder, divideAll_reorder]

/-- The final weights of the reordered assets are the reordered final weights. -/
theorem finalWeights_reorder (sqrt : K → K) (mu : Fin n → K) (cov : Matrix (Fin n) (Fin n) K)
    (vols : Fin n → Flt K) (cap : K) (maxIters : ℕ) (stepSize : K) :
    finalWeights sqrt (mu ∘ σ) (cov.submatrix σ σ) (vols ∘ σ) cap maxIters stepSize =
      (finalWeights sqrt mu cov vols cap maxIters stepSize).map (· ∘ σ) := by
  have hiff : (∃ i, (vols ∘ σ) i ≤ .fin 0) ↔ ∃ i, vols i ≤ .fin 0 :=
    σ.exists_congr_right (q := fun i => vols i ≤ .fin 0)
  unfold finalWeights
  rw [optimizeSharpeProxy_reorder, inverseVolWeights_reorder]
  refine bind_reorder σ (fun a => ?_) _
  rw [guardOptimized_reorder]
  refine bind_reorder σ (fun a => ?_) _
  refine bind_reorder σ (fun b => ?_) _
  by_cases h : ∃ i, vols i ≤ .fin 0
  · rw [if_pos h, if_pos (hiff.mpr h)]
    rfl
  · rw [if_neg h, if_neg fun hc => h (hiff.mp hc)]
    exact blend_reorder σ a b

end PortfolioEngine.Allocator
