import Mathlib.Data.List.DropRight

/-!
# The most recent entries of a list

A ring buffer keeps the last entries that were pushed. A series operation with a finite lookback,
such as a shift or a rolling aggregate, computes the last values of its result from the last
entries of its input: `SameTail k s s'` says that the last `k` entries of both are there and
agree, and each operation says how many of them it uses up.
-/

namespace Recent

variable {α β γ : Type*}

/-! ## Prefixes that end with an entry -/

theorem not_concat_prefix_nil {l : List α} {x : α} : ¬ l ++ [x] <+: [] := fun h =>
  List.append_ne_nil_of_right_ne_nil l (List.cons_ne_nil x []) (List.prefix_nil.mp h)

theorem concat_prefix_concat {l s : List α} {x y : α} :
    l ++ [x] <+: s ++ [y] ↔ l ++ [x] <+: s ∨ l = s ∧ x = y := by
  rw [List.prefix_concat_iff, or_comm]
  refine or_congr Iff.rfl ⟨fun h => ?_, fun h => by rw [h.1, h.2]⟩
  obtain ⟨hl, hx⟩ := List.append_inj' h rfl
  exact ⟨hl, List.singleton_inj.mp hx⟩

/-- Of two places in a list one comes first, unless they are the same. -/
theorem prefix_of_concat_prefix {l l' s : List α} {x x' : α} (h : l ++ [x] <+: s)
    (h' : l' ++ [x'] <+: s) : l = l' ∧ x = x' ∨ l ++ [x] <+: l' ∨ l' ++ [x'] <+: l := by
  rcases List.prefix_or_prefix_of_prefix h h' with hle | hle
  · rcases concat_prefix_concat.mp hle with hle | heq
    · exact Or.inr (Or.inl hle)
    · exact Or.inl heq
  · rcases concat_prefix_concat.mp hle with hle | heq
    · exact Or.inr (Or.inr hle)
    · exact Or.inl ⟨heq.1.symm, heq.2.symm⟩

/-! ## Ring buffers -/

/-- Append to a ring buffer of capacity `cap`. -/
def push (cap : ℕ) (buf : List α) (x : α) : List α := (buf ++ [x]).rtake cap

theorem length_rtake (k : ℕ) (s : List α) : (s.rtake k).length = min k s.length := by
  rw [List.rtake, List.length_drop]
  omega

theorem rtake_of_length_le {k : ℕ} {s : List α} (h : s.length ≤ k) : s.rtake k = s := by
  rw [List.rtake, Nat.sub_eq_zero_of_le h, List.drop_zero]

theorem mem_of_mem_rtake {k : ℕ} {s : List α} {x : α} (h : x ∈ s.rtake k) : x ∈ s :=
  List.mem_of_mem_drop h

theorem rtake_rtake {j k : ℕ} (h : j ≤ k) (s : List α) : (s.rtake k).rtake j = s.rtake j := by
  rw [List.rtake, List.rtake, List.rtake, List.drop_drop, List.length_drop]
  congr 1
  omega

theorem rtake_map (k : ℕ) (f : α → β) (s : List α) : (s.map f).rtake k = (s.rtake k).map f := by
  rw [List.rtake, List.rtake, List.length_map, List.map_drop]

theorem rtake_succ {k : ℕ} {s : List α} (h : k < s.length) :
    ∃ x, s.rtake (k + 1) = x :: s.rtake k := by
  have hlt : s.length - (k + 1) < s.length := by omega
  refine ⟨s[s.length - (k + 1)], ?_⟩
  rw [List.rtake, List.drop_eq_getElem_cons hlt, List.rtake]
  congr 2
  omega

/-- A ring buffer holds the last `cap` of all entries. -/
theorem push_rtake (cap : ℕ) (s : List α) (x : α) :
    push cap (s.rtake cap) x = (s ++ [x]).rtake cap := by
  unfold push
  cases cap with
  | zero => rw [List.rtake_zero, List.rtake_zero]
  | succ k =>
    rw [List.rtake_concat_succ, List.rtake_concat_succ]
    congr 1
    exact rtake_rtake (Nat.le_succ k) s

/-! ## Agreement of the last entries -/

/-- Both lists have the last `k` entries, and they are the same. -/
structure SameTail (k : ℕ) (s s' : List α) : Prop where
  le : k ≤ s.length
  le' : k ≤ s'.length
  rtake : s.rtake k = s'.rtake k

theorem SameTail.zero (s s' : List α) : SameTail 0 s s' :=
  ⟨Nat.zero_le _, Nat.zero_le _, by rw [List.rtake_zero, List.rtake_zero]⟩

theorem sameTail_rtake {k : ℕ} {s : List α} (h : k ≤ s.length) : SameTail k s (s.rtake k) := by
  have hlen : (s.rtake k).length = k := by rw [length_rtake]; omega
  exact ⟨h, hlen.ge, by rw [rtake_of_length_le hlen.le]⟩

theorem SameTail.concat {k : ℕ} {s s' : List α} (h : SameTail k s s') (x : α) :
    SameTail (k + 1) (s ++ [x]) (s' ++ [x]) := by
  refine ⟨?_, ?_, ?_⟩
  · rw [List.length_append]; exact Nat.add_le_add_right h.le 1
  · rw [List.length_append]; exact Nat.add_le_add_right h.le' 1
  · rw [List.rtake_concat_succ, List.rtake_concat_succ, h.rtake]

/-- Agreement on one more entry is a common last entry and agreement before it. -/
theorem SameTail.cases_succ {k : ℕ} {s s' : List α} (h : SameTail (k + 1) s s') :
    ∃ u u' x, s = u ++ [x] ∧ s' = u' ++ [x] ∧ SameTail k u u' := by
  obtain ⟨hle, hle', heq⟩ := h
  rcases List.eq_nil_or_concat' s with rfl | ⟨u, x, rfl⟩
  · exact absurd hle (Nat.not_succ_le_zero k)
  rcases List.eq_nil_or_concat' s' with rfl | ⟨u', x', rfl⟩
  · exact absurd hle' (Nat.not_succ_le_zero k)
  rw [List.rtake_concat_succ, List.rtake_concat_succ] at heq
  obtain ⟨hu, hx⟩ := List.append_inj' heq rfl
  obtain rfl := List.singleton_inj.mp hx
  rw [List.length_append, List.length_singleton] at hle hle'
  exact ⟨u, u', x, rfl, rfl, ⟨by omega, by omega, hu⟩⟩

theorem SameTail.mono {k l : ℕ} {s s' : List α} (h : SameTail k s s') (hl : l ≤ k) :
    SameTail l s s' := by
  induction k generalizing l s s' with
  | zero => rw [Nat.le_zero.mp hl]; exact h
  | succ k ih =>
    obtain ⟨u, u', x, rfl, rfl, hu⟩ := h.cases_succ
    cases l with
    | zero => exact SameTail.zero _ _
    | succ l => exact (ih hu (Nat.le_of_succ_le_succ hl)).concat x

theorem SameTail.getLast? {k : ℕ} {s s' : List α} (h : SameTail (k + 1) s s') :
    s.getLast? = s'.getLast? := by
  obtain ⟨u, u', x, rfl, rfl, _⟩ := h.cases_succ
  rw [List.getLast?_concat, List.getLast?_concat]

/-- An operation that appends, for each new entry, a value of the last `d + 1` entries uses up
`d` of them. -/
theorem SameTail.causal {F : List α → List β} {g : List α → β} {d : ℕ}
    (hF : ∀ s x, F (s ++ [x]) = F s ++ [g (s ++ [x])])
    (hg : ∀ {s s'}, SameTail (d + 1) s s' → g s = g s') {k : ℕ} {s s' : List α}
    (h : SameTail (d + k) s s') : SameTail k (F s) (F s') := by
  induction k generalizing s s' with
  | zero => exact SameTail.zero _ _
  | succ k ih =>
    have hlast : g s = g s' := hg (h.mono (by omega))
    obtain ⟨u, u', x, rfl, rfl, hu⟩ := SameTail.cases_succ (k := d + k) h
    rw [hF, hF, hlast]
    exact (ih hu).concat _

theorem SameTail.map {k : ℕ} {s s' : List α} (h : SameTail k s s') (f : α → β) :
    SameTail k (s.map f) (s'.map f) := by
  induction k generalizing s s' with
  | zero => exact SameTail.zero _ _
  | succ k ih =>
    obtain ⟨u, u', x, rfl, rfl, hu⟩ := h.cases_succ
    rw [List.map_append, List.map_append]
    exact (ih hu).concat (f x)

theorem SameTail.zipWith {k : ℕ} {a a' : List α} {b b' : List β} (ha : SameTail k a a')
    (hb : SameTail k b b') (hlen : a.length = b.length) (hlen' : a'.length = b'.length)
    (f : α → β → γ) : SameTail k (List.zipWith f a b) (List.zipWith f a' b') := by
  induction k generalizing a a' b b' with
  | zero => exact SameTail.zero _ _
  | succ k ih =>
    obtain ⟨u, u', x, rfl, rfl, hu⟩ := ha.cases_succ
    obtain ⟨v, v', y, rfl, rfl, hv⟩ := hb.cases_succ
    simp only [List.length_append, List.length_singleton, Nat.add_right_cancel_iff] at hlen hlen'
    rw [List.zipWith_append hlen, List.zipWith_append hlen']
    exact (ih hu hv hlen hlen').concat (f x y)

/-! ## Shifts and rolling aggregates -/

/-- Move the series one place on, starting with `missing`. -/
def shift (missing : α) (s : List α) : List α := (missing :: s).take s.length

/-- Aggregate the last `w` entries at each place, `missing` where there are fewer. -/
def rolling (w : ℕ) (missing : β) (agg : List α → β) (s : List α) : List β :=
  (List.range s.length).map fun i =>
    if i + 1 < w then missing else agg ((s.take (i + 1)).rtake w)

theorem length_shift (missing : α) (s : List α) : (shift missing s).length = s.length := by
  unfold shift
  rw [List.length_take, List.length_cons]
  omega

theorem length_rolling (w : ℕ) (missing : β) (agg : List α → β) (s : List α) :
    (rolling w missing agg s).length = s.length := by
  unfold rolling
  rw [List.length_map, List.length_range]

theorem shift_concat (missing : α) (s : List α) (x : α) :
    shift missing (s ++ [x]) = shift missing s ++ [s.getLast?.getD missing] := by
  unfold shift
  rcases List.eq_nil_or_concat' s with rfl | ⟨u, y, rfl⟩
  · rfl
  · rw [List.getLast?_concat]
    simp [List.take_append, List.take_of_length_le]

theorem rolling_concat (w : ℕ) (missing : β) (agg : List α → β) (s : List α) (x : α) :
    rolling w missing agg (s ++ [x]) = rolling w missing agg s ++
      [if (s ++ [x]).length < w then missing else agg ((s ++ [x]).rtake w)] := by
  unfold rolling
  rw [List.length_append, List.length_singleton, List.range_succ, List.map_append]
  congr 1
  · refine List.map_congr_left fun i hi => ?_
    rw [List.take_append_of_le_length (List.mem_range.mp hi)]
  · show [if s.length + 1 < w then missing else agg (((s ++ [x]).take (s.length + 1)).rtake w)] = _
    rw [List.take_of_length_le (by simp)]

theorem SameTail.shift {k : ℕ} {s s' : List α} (h : SameTail (1 + k) s s') (missing : α) :
    SameTail k (shift missing s) (shift missing s') := by
  refine SameTail.causal (g := fun s => s.dropLast.getLast?.getD missing) (fun s x => ?_)
    (fun {s s'} h => ?_) h
  · rw [shift_concat, List.dropLast_concat]
  · obtain ⟨u, u', x, rfl, rfl, hu⟩ := h.cases_succ
    rw [List.dropLast_concat, List.dropLast_concat, hu.getLast?]

/-- A rolling aggregate of `w` entries uses up `w - 1` of them. -/
theorem SameTail.rolling {w k : ℕ} (hw : 0 < w) {s s' : List α}
    (h : SameTail (w - 1 + k) s s') (missing : β) (agg : List α → β) :
    SameTail k (rolling w missing agg s) (rolling w missing agg s') := by
  refine SameTail.causal (g := fun s => if s.length < w then missing else agg (s.rtake w))
    (rolling_concat w missing agg) (fun {s s'} h => ?_) h
  rw [Nat.sub_add_cancel hw] at h
  rw [if_neg (not_lt.mpr h.le), if_neg (not_lt.mpr h.le'), h.rtake]

/-- Both are causal: a prefix of the input gives the prefix of the output. -/
theorem shift_take (missing : α) (s : List α) (k : ℕ) :
    shift missing (s.take k) = (shift missing s).take k := by
  unfold shift
  rw [List.length_take, List.take_take, ← List.take_succ_cons, List.take_take]
  congr 1
  omega

theorem rolling_take (w : ℕ) (missing : β) (agg : List α → β) (s : List α) (k : ℕ) :
    rolling w missing agg (s.take k) = (rolling w missing agg s).take k := by
  unfold rolling
  rw [List.length_take, ← List.map_take, List.take_range]
  refine List.map_congr_left fun i hi => ?_
  have hik : i + 1 ≤ k := by
    have := List.mem_range.mp hi
    omega
  rw [List.take_take, min_eq_left hik]

theorem getLast?_rolling {w : ℕ} {s : List α} (hs : s ≠ []) (hw : w ≤ s.length) (missing : β)
    (agg : List α → β) : (rolling w missing agg s).getLast? = some (agg (s.rtake w)) := by
  obtain ⟨u, x, rfl⟩ := (List.eq_nil_or_concat' s).resolve_left hs
  rw [rolling_concat, List.getLast?_concat, if_neg (not_lt.mpr hw)]

end Recent
