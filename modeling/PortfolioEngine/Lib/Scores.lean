import Mathlib.Analysis.SpecialFunctions.Log.Basic

/-!
# Scores

A score `S a x` compares the prediction `x` with the outcome `a`; a lower one is better. It is
strict if the outcome itself scores better than any other prediction. A mean of strict scores is
strict: it is least for perfect predictions only.
-/

namespace Scores

/-- On values in `P`, the best prediction of `a` is `a` and no other. -/
def Strict {α K : Type*} [LE K] (P : α → Prop) (S : α → α → K) : Prop :=
  ∀ a x, P a → P x → S a a ≤ S a x ∧ (S a x = S a a ↔ x = a)

section Mean

variable {α K : Type*} [Field K] [LinearOrder K] [IsStrictOrderedRing K] {P : α → Prop}
  {S : α → α → K}

/-- The sum of the scores of pairs of an outcome and a prediction. -/
theorem Strict.sum (h : Strict P S) {ps : List (α × α)} (hps : ∀ p ∈ ps, P p.1 ∧ P p.2) :
    (ps.map fun p => S p.1 p.1).sum ≤ (ps.map fun p => S p.1 p.2).sum ∧
      ((ps.map fun p => S p.1 p.2).sum = (ps.map fun p => S p.1 p.1).sum ↔
        ∀ p ∈ ps, p.2 = p.1) := by
  induction ps with
  | nil => simp
  | cons p ps ih =>
    obtain ⟨hp, htail⟩ := List.forall_mem_cons.mp hps
    obtain ⟨hle, heq⟩ := h p.1 p.2 hp.1 hp.2
    obtain ⟨hles, heqs⟩ := ih htail
    simp only [List.map_cons, List.sum_cons, List.forall_mem_cons]
    refine ⟨add_le_add hle hles, ?_⟩
    rw [← heq, ← heqs, eq_comm, add_eq_add_iff_eq_and_eq hle hles]
    exact and_congr eq_comm eq_comm

theorem Strict.mean (h : Strict P S) {ps : List (α × α)} (hps : ∀ p ∈ ps, P p.1 ∧ P p.2) :
    (ps.map fun p => S p.1 p.1).sum / ps.length ≤ (ps.map fun p => S p.1 p.2).sum / ps.length ∧
      ((ps.map fun p => S p.1 p.2).sum / ps.length = (ps.map fun p => S p.1 p.1).sum / ps.length ↔
        ∀ p ∈ ps, p.2 = p.1) := by
  obtain ⟨hle, heq⟩ := h.sum hps
  refine ⟨div_le_div_of_nonneg_right hle (Nat.cast_nonneg _), ?_⟩
  cases ps with
  | nil => simp
  | cons p ps =>
    have hlength : ((p :: ps).length : K) ≠ 0 := Nat.cast_ne_zero.mpr (Nat.succ_ne_zero _)
    rw [div_left_inj' hlength, heq]

end Mean

/-- The quasi-likelihood of a variance `x`: `log x + a / x` is least at `x = a`. -/
theorem strict_log_add_div : Strict (0 < ·) fun a x : ℝ => Real.log x + a / x := by
  intro a x ha hx
  have hratio : Real.log (a / x) = Real.log a - Real.log x := Real.log_div ha.ne' hx.ne'
  have hself : a / a = 1 := div_self ha.ne'
  have hle := Real.log_le_sub_one_of_pos (div_pos ha hx)
  refine ⟨by dsimp only; linarith, ⟨fun heq => ?_, fun heq => by rw [heq]⟩⟩
  by_contra hne
  have hne' : a / x ≠ 1 := fun hone => hne ((div_eq_one_iff_eq hx.ne').mp hone).symm
  have hlt := Real.log_lt_sub_one_of_pos (div_pos ha hx) hne'
  dsimp only at heq
  linarith

end Scores
