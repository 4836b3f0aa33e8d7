import Mathlib.Algebra.Order.Field.Basic
import Mathlib.Order.Bounds.Basic

/-!
# Drawdowns

A fall of a series is the share of a positive value that is lost at a later one. The maximal
drawdown is the largest fall, or 0. A single pass finds it from the peak so far.

`Scanned.concat`: what one step of the pass keeps. `Scanned.unique`: the result is determined.
-/

namespace Drawdown

variable {K : Type*} [Field K] [LinearOrder K]

/-- The falls of a series: from a positive value to itself or a later one, over the former. -/
def falls (es : List K) : Set K :=
  {d | ∃ (i j : ℕ) (x y : K), i ≤ j ∧ es[i]? = some x ∧ es[j]? = some y ∧ 0 < x ∧ d = (x - y) / x}

/-- `worst` is the maximal drawdown of the series. -/
def IsDrawdown (es : List K) (worst : K) : Prop := IsGreatest (insert 0 (falls es)) worst

/-- The state of the pass: the largest value and the maximal drawdown so far. -/
structure Scanned (es : List K) (peak worst : K) : Prop where
  peak : IsGreatest {x | x ∈ es} peak
  worst : IsDrawdown es worst

theorem falls_nil : falls ([] : List K) = ∅ := by
  ext d
  simp [falls]

theorem isDrawdown_nil : IsDrawdown ([] : List K) 0 := by
  unfold IsDrawdown
  rw [falls_nil, insert_empty_eq]
  exact isGreatest_singleton

theorem mem_falls_concat {es : List K} {e d : K} :
    d ∈ falls (es ++ [e]) ↔ d ∈ falls es ∨ ∃ x ∈ es ++ [e], 0 < x ∧ d = (x - e) / x := by
  have hlast : (es ++ [e])[es.length]? = some e := List.getElem?_concat_length
  constructor
  · rintro ⟨i, j, x, y, hij, hx, hy, hpos, hd⟩
    have hj : j < (es ++ [e]).length := (List.getElem?_eq_some_iff.mp hy).1
    rw [List.length_append, List.length_singleton] at hj
    rcases (Nat.lt_succ_iff.mp hj).lt_or_eq with hlt | rfl
    · left
      rw [List.getElem?_append_left hlt] at hy
      rw [List.getElem?_append_left (hij.trans_lt hlt)] at hx
      exact ⟨i, j, x, y, hij, hx, hy, hpos, hd⟩
    · right
      obtain rfl : e = y := Option.some.inj (hlast.symm.trans hy)
      exact ⟨x, List.mem_of_getElem? hx, hpos, hd⟩
  · rintro (⟨i, j, x, y, hij, hx, hy, hpos, hd⟩ | ⟨x, hx, hpos, hd⟩)
    · refine ⟨i, j, x, y, hij, ?_, ?_, hpos, hd⟩
      · rw [List.getElem?_append_left (List.getElem?_eq_some_iff.mp hx).1, hx]
      · rw [List.getElem?_append_left (List.getElem?_eq_some_iff.mp hy).1, hy]
    · obtain ⟨i, hi⟩ := List.mem_iff_getElem?.mp hx
      have hlt : i < (es ++ [e]).length := (List.getElem?_eq_some_iff.mp hi).1
      rw [List.length_append, List.length_singleton] at hlt
      exact ⟨i, es.length, x, e, Nat.lt_succ_iff.mp hlt, hi, hlast, hpos, hd⟩

section Order

variable [IsStrictOrderedRing K] {es : List K} {e peak worst : K}

theorem fall_le_fall {x y : K} (he : 0 ≤ e) (hx : 0 < x) (hxy : x ≤ y) :
    (x - e) / x ≤ (y - e) / y := by
  have hy : 0 < y := hx.trans_le hxy
  rw [sub_div, sub_div, div_self hx.ne', div_self hy.ne']
  exact sub_le_sub_left (div_le_div_of_nonneg_left he hx hxy) 1

omit [IsStrictOrderedRing K] in
theorem scanned_singleton (e : K) : Scanned [e] e 0 := by
  constructor
  · constructor
    · exact List.mem_singleton_self e
    · intro x hx
      exact (List.mem_singleton.mp hx).le
  · refine ⟨Set.mem_insert 0 _, ?_⟩
    rintro d (rfl | hd)
    · exact le_rfl
    · rw [← List.nil_append [e], mem_falls_concat, falls_nil] at hd
      obtain ⟨x, hx, -, rfl⟩ := hd.resolve_left (Set.notMem_empty d)
      rw [List.nil_append, List.mem_singleton] at hx
      rw [hx, sub_self, zero_div]

/-- One step of the pass. -/
theorem Scanned.concat (h : Scanned es peak worst) (he : 0 ≤ e) :
    Scanned (es ++ [e]) (max peak e)
      (if 0 < max peak e ∧ worst < (max peak e - e) / max peak e
        then (max peak e - e) / max peak e else worst) := by
  have hpeak : IsGreatest {x | x ∈ es ++ [e]} (max peak e) := by
    constructor
    · rcases max_choice peak e with hmax | hmax
      · rw [hmax]
        exact List.mem_append_left _ h.peak.1
      · rw [hmax]
        exact List.mem_append_right _ (List.mem_singleton_self e)
    · intro x hx
      rcases List.mem_append.mp hx with hx | hx
      · exact (h.peak.2 hx).trans (le_max_left _ _)
      · exact (List.mem_singleton.mp hx).le.trans (le_max_right _ _)
  refine ⟨hpeak, ?_⟩
  have hnew : ∀ x ∈ es ++ [e], 0 < x → (x - e) / x ≤ (max peak e - e) / max peak e :=
    fun x hx hpos => fall_le_fall he hpos (hpeak.2 hx)
  split_ifs with hstep
  · refine ⟨Set.mem_insert_of_mem _ (mem_falls_concat.mpr (Or.inr ⟨_, hpeak.1, hstep.1, rfl⟩)), ?_⟩
    rintro d (rfl | hd)
    · exact (h.worst.2 (Set.mem_insert _ _)).trans hstep.2.le
    · rcases mem_falls_concat.mp hd with hd | ⟨x, hx, hpos, rfl⟩
      · exact (h.worst.2 (Set.mem_insert_of_mem _ hd)).trans hstep.2.le
      · exact hnew x hx hpos
  · refine ⟨h.worst.1.imp_right fun hd => mem_falls_concat.mpr (Or.inl hd), ?_⟩
    rintro d (rfl | hd)
    · exact h.worst.2 (Set.mem_insert _ _)
    · rcases mem_falls_concat.mp hd with hd | ⟨x, hx, hpos, rfl⟩
      · exact h.worst.2 (Set.mem_insert_of_mem _ hd)
      · refine (hnew x hx hpos).trans (not_lt.mp fun hlt => hstep ⟨?_, hlt⟩)
        exact hpos.trans_le (hpeak.2 hx)

/-- The maximal drawdown of nonnegative values is a share. -/
theorem IsDrawdown.mem_unit (h : IsDrawdown es worst) (hes : ∀ x ∈ es, 0 ≤ x) :
    0 ≤ worst ∧ worst ≤ 1 := by
  refine ⟨h.2 (Set.mem_insert _ _), ?_⟩
  rcases h.1 with rfl | ⟨i, j, x, y, -, -, hy, hpos, rfl⟩
  · exact zero_le_one
  · rw [div_le_one hpos]
    exact sub_le_self x (hes y (List.mem_of_getElem? hy))

theorem falls_map_mul {c : K} (hc : 0 < c) (es : List K) :
    falls (es.map fun x => c * x) = falls es := by
  have hsame : ∀ x y : K, (c * x - c * y) / (c * x) = (x - y) / x := fun x y => by
    rw [← mul_sub, mul_div_mul_left _ _ hc.ne']
  ext d
  constructor
  · rintro ⟨i, j, x', y', hij, hx, hy, hpos, rfl⟩
    rw [List.getElem?_map] at hx hy
    obtain ⟨x, hx₀, rfl⟩ := Option.map_eq_some_iff.mp hx
    obtain ⟨y, hy₀, rfl⟩ := Option.map_eq_some_iff.mp hy
    exact ⟨i, j, x, y, hij, hx₀, hy₀, (mul_pos_iff_of_pos_left hc).mp hpos, hsame x y⟩
  · rintro ⟨i, j, x, y, hij, hx, hy, hpos, rfl⟩
    refine ⟨i, j, c * x, c * y, hij, ?_, ?_, mul_pos hc hpos, (hsame x y).symm⟩
    · rw [List.getElem?_map, hx, Option.map_some]
    · rw [List.getElem?_map, hy, Option.map_some]

end Order

theorem IsDrawdown.unique {es : List K} {d d' : K} (h : IsDrawdown es d) (h' : IsDrawdown es d') :
    d = d' :=
  IsGreatest.unique h h'

end Drawdown
