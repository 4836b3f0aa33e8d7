import Mathlib.Algebra.Order.BigOperators.Group.List
import Mathlib.Algebra.Order.Group.Nat
import Mathlib.Data.List.MinMax
import Mathlib.Data.List.Perm.Subperm
import Mathlib.Data.List.Sort

/-!
# Backlogs

A backlog is a list of items, each with a time of its own. A batch is what is read of it: the first
`limit` items in the order of time. An item that is served leaves the backlog; one that is not
stays and takes its place in the next batch.

`Drains.drained_iff`: where every batch serves exactly its items in `Ok`, these all leave the
backlog if and only if none of them has `limit` items outside `Ok` before it.
-/

namespace Backlog

variable {α τ : Type*} [LinearOrder τ] (time : α → τ)

/-- The items in the order of time. -/
def ordered (items : List α) : List α := items.insertionSort fun x y => time x ≤ time y

/-- The first `limit` items in the order of time. -/
def batch (limit : ℕ) (items : List α) : List α := (ordered time items).take limit

/-- The items before `x`. -/
def before (x : α) (items : List α) : List α := items.filter fun y => time y < time x

section Order

variable {items : List α} {x y : α}

theorem perm_ordered (items : List α) : (ordered time items).Perm items :=
  List.perm_insertionSort _ items

theorem mem_ordered : x ∈ ordered time items ↔ x ∈ items := (perm_ordered time items).mem_iff

theorem pairwise_ordered (items : List α) :
    (ordered time items).Pairwise fun x y => time x ≤ time y := by
  have : IsTrans α fun x y => time x ≤ time y := ⟨fun _ _ _ => le_trans⟩
  have : Std.Total fun x y => time x ≤ time y := ⟨fun x y => le_total (time x) (time y)⟩
  exact List.pairwise_insertionSort _ items

theorem map_ordered {β : Type*} (key : β → τ) (f : α → β) (hf : ∀ x, key (f x) = time x) :
    (ordered time items).map f = ordered key (items.map f) := by
  refine List.map_insertionSort _ _ f items fun x _ y _ => ?_
  rw [hf, hf]

variable {time}

theorem strict_ordered (h : (items.map time).Nodup) :
    (ordered time items).Pairwise fun x y => time x < time y := by
  have hne : (ordered time items).Pairwise fun x y => time x ≠ time y :=
    List.pairwise_map.mp (((perm_ordered time items).map time).nodup_iff.mpr h)
  exact ((pairwise_ordered time items).and hne).imp fun h => lt_of_le_of_ne h.1 h.2

theorem filter_ordered (h : (items.map time).Nodup) (p : α → Bool) :
    (ordered time items).filter p = ordered time (items.filter p) := by
  have hfilter : ((items.filter p).map time).Nodup :=
    h.sublist (List.Sublist.map time List.filter_sublist)
  have hperm : ((ordered time items).filter p).Perm (ordered time (items.filter p)) :=
    ((perm_ordered time items).filter p).trans (perm_ordered time (items.filter p)).symm
  refine hperm.eq_of_pairwise (fun x y _ _ hxy hyx => absurd hxy (lt_asymm hyx)) ?_
    (strict_ordered hfilter)
  exact (strict_ordered h).filter p

theorem ordered_concat (h : (items.map time).Nodup) (hx : ∀ y ∈ items, time y < time x) :
    ordered time (items ++ [x]) = ordered time items ++ [x] := by
  have hstrict : ((items ++ [x]).map time).Nodup := by
    rw [List.map_append, List.map_singleton]
    refine List.nodup_append.mpr ⟨h, List.nodup_singleton _, fun a ha b hb => ?_⟩
    obtain ⟨y, hy, rfl⟩ := List.mem_map.mp ha
    rw [List.mem_singleton.mp hb]
    exact (hx y hy).ne
  have hperm : (ordered time (items ++ [x])).Perm (ordered time items ++ [x]) :=
    (perm_ordered time _).trans ((perm_ordered time items).append_right [x]).symm
  refine hperm.eq_of_pairwise (fun a b _ _ hab hba => absurd hab (lt_asymm hba))
    (strict_ordered hstrict) ?_
  refine List.pairwise_append.mpr ⟨strict_ordered h, List.pairwise_singleton _ x,
    fun a ha b hb => ?_⟩
  rw [List.mem_singleton.mp hb]
  exact hx a ((mem_ordered time).mp ha)

theorem mem_of_mem_batch {limit : ℕ} (h : x ∈ batch time limit items) : x ∈ items :=
  (mem_ordered time).mp (List.mem_of_mem_take h)

theorem mem_before : y ∈ before time x items ↔ y ∈ items ∧ time y < time x := by
  simp [before]

omit [LinearOrder τ] in
theorem nodup_of_times (h : (items.map time).Nodup) : items.Nodup := h.of_map time

theorem mem_batch_iff (h : (items.map time).Nodup) (hx : x ∈ items) {limit : ℕ} :
    x ∈ batch time limit items ↔ (before time x items).length < limit := by
  have hstrict := strict_ordered h
  obtain ⟨as, bs, hsplit⟩ := List.append_of_mem ((mem_ordered time).mpr hx)
  rw [hsplit, List.pairwise_append] at hstrict
  obtain ⟨_, hbs, has⟩ := hstrict
  have hlast : ∀ y ∈ bs, time x < time y := (List.pairwise_cons.mp hbs).1
  have hbefore : before time x (ordered time items) = as := by
    unfold before
    rw [hsplit, List.filter_append, List.filter_cons_of_neg (by simp), List.filter_eq_self.mpr,
      List.filter_eq_nil_iff.mpr, List.append_nil]
    · intro y hy
      simpa using (hlast y hy).le
    · intro y hy
      simpa using has y hy x List.mem_cons_self
  have hlength : (before time x items).length = as.length := by
    rw [← hbefore]
    exact ((perm_ordered time items).filter _).length_eq.symm
  rw [hlength]
  unfold batch
  rw [hsplit]
  constructor
  · intro hmem
    by_contra hlt
    rw [List.take_append_of_le_length (by omega)] at hmem
    exact lt_irrefl _ (has x (List.mem_of_mem_take hmem) x List.mem_cons_self)
  · intro hlt
    rw [List.mem_take_iff_getElem]
    exact ⟨as.length, by simp; omega, by simp⟩

end Order

/-! ## What is served -/

section Served

variable (Ok : α → Prop) [DecidablePred Ok]

/-- The items before `x` that no batch serves. -/
def blockers (x : α) (items : List α) : List α := (before time x items).filter fun y => ¬ Ok y

variable {time Ok} {items : List α} {x y : α} {limit : ℕ}

theorem mem_blockers : y ∈ blockers time Ok x items ↔ y ∈ items ∧ time y < time x ∧ ¬ Ok y := by
  simp [blockers, mem_before, and_assoc]

/-- With fewer than `limit` blockers before an item in `Ok`, the first item in `Ok` is in the
batch. -/
theorem exists_mem_batch (h : (items.map time).Nodup) (hx : x ∈ items) (hok : Ok x)
    (hfew : (blockers time Ok x items).length < limit) :
    ∃ y ∈ batch time limit items, Ok y ∧ time y ≤ time x := by
  have hxf : x ∈ items.filter fun y => Ok y := List.mem_filter.mpr ⟨hx, decide_eq_true hok⟩
  obtain ⟨y, hy⟩ : ∃ y, (items.filter fun y => Ok y).argmin time = some y := by
    cases hmin : (items.filter fun y => Ok y).argmin time with
    | some y => exact ⟨y, rfl⟩
    | none =>
      rw [List.argmin_eq_none.mp hmin] at hxf
      exact absurd hxf List.not_mem_nil
  obtain ⟨hmem, hyok⟩ := List.mem_filter.mp (List.argmin_mem hy)
  have hyx : time y ≤ time x := List.le_of_mem_argmin hxf hy
  refine ⟨y, (mem_batch_iff h hmem).mpr (lt_of_le_of_lt ?_ hfew), of_decide_eq_true hyok, hyx⟩
  -- everything before the first item in `Ok` is a blocker
  refine (((nodup_of_times h).filter _).subperm fun z hz => ?_).length_le
  obtain ⟨hzmem, hzy⟩ := mem_before.mp hz
  refine mem_blockers.mpr ⟨hzmem, hzy.trans_le hyx, fun hzok => ?_⟩
  have hzf : z ∈ items.filter fun y => Ok y := List.mem_filter.mpr ⟨hzmem, decide_eq_true hzok⟩
  exact absurd hzy (not_lt.mpr (List.le_of_mem_argmin hzf hy))

/-- A batch has an item in `Ok` if and only if the blockers of some such item are few. -/
theorem batch_serves_iff (h : (items.map time).Nodup) :
    (∃ y ∈ batch time limit items, Ok y) ↔
      ∃ x ∈ items, Ok x ∧ (blockers time Ok x items).length < limit := by
  constructor
  · rintro ⟨y, hy, hok⟩
    have hmem := mem_of_mem_batch hy
    refine ⟨y, hmem, hok, lt_of_le_of_lt ?_ ((mem_batch_iff h hmem).mp hy)⟩
    exact List.length_filter_le _ _
  · rintro ⟨x, hx, hok, hfew⟩
    obtain ⟨y, hy, hyok, _⟩ := exists_mem_batch h hx hok hfew
    exact ⟨y, hy, hyok⟩

end Served

/-! ## Batch after batch -/

section Drain

variable (Ok : α → Prop) (limit : ℕ)

/-- Batch after batch, up to the time `T` the backlog loses exactly the items in `Ok` of the batch;
later items may come and go. -/
structure Drains (T : τ) (items : ℕ → List α) : Prop where
  nodup : ∀ n, ((items n).map time).Nodup
  step : ∀ n x, time x ≤ T →
    (x ∈ items (n + 1) ↔ x ∈ items n ∧ ¬ (Ok x ∧ x ∈ batch time limit (items n)))

variable {time Ok limit} {T : τ} {items : ℕ → List α} {x : α}

theorem Drains.mem_of_succ (h : Drains time Ok limit T items) {n : ℕ} (hT : time x ≤ T)
    (hx : x ∈ items (n + 1)) : x ∈ items n :=
  ((h.step n x hT).mp hx).1

theorem Drains.mem_of_le (h : Drains time Ok limit T items) {m n : ℕ} (hmn : m ≤ n)
    (hT : time x ≤ T) (hx : x ∈ items n) : x ∈ items m := by
  induction hmn with
  | refl => exact hx
  | step _ ih => exact ih (h.mem_of_succ hT hx)

theorem Drains.mem_blocker (h : Drains time Ok limit T items) (hT : time x ≤ T) (hok : ¬ Ok x)
    (hx : x ∈ items 0) (n : ℕ) : x ∈ items n := by
  induction n with
  | zero => exact hx
  | succ n ih => exact (h.step n x hT).mpr ⟨ih, fun hc => hok hc.1⟩

variable [DecidablePred Ok]

theorem Drains.stuck (h : Drains time Ok limit T items) (hT : time x ≤ T) (hx : x ∈ items 0)
    (hmany : limit ≤ (blockers time Ok x (items 0)).length) (n : ℕ) : x ∈ items n := by
  induction n with
  | zero => exact hx
  | succ n ih =>
    refine (h.step n x hT).mpr ⟨ih, fun hc => ?_⟩
    have hsub : blockers time Ok x (items 0) ⊆ before time x (items n) := by
      intro y hy
      obtain ⟨hmem, hyx, hyok⟩ := mem_blockers.mp hy
      exact mem_before.mpr ⟨h.mem_blocker (hyx.le.trans hT) hyok hmem n, hyx⟩
    have hnodup : (blockers time Ok x (items 0)).Nodup :=
      ((nodup_of_times (h.nodup 0)).filter _).filter _
    have hle := (hnodup.subperm hsub).length_le
    exact absurd ((mem_batch_iff (h.nodup n) ih).mp hc.2) (by omega)

/-- The items in `Ok` that have to leave, the latest at `x`. -/
def due (time : α → τ) (Ok : α → Prop) [DecidablePred Ok] (x : α) (items : List α) : List α :=
  items.filter fun y => Ok y ∧ time y ≤ time x

/-- While an item with few blockers stays, each batch serves an item up to it. -/
theorem Drains.due_lt (h : Drains time Ok limit T items) (hT : time x ≤ T) (hok : Ok x)
    (hfew : (blockers time Ok x (items 0)).length < limit) {n : ℕ} (hx : x ∈ items n) :
    (due time Ok x (items (n + 1))).length < (due time Ok x (items n)).length := by
  have hblockers : (blockers time Ok x (items n)).length < limit := by
    refine lt_of_le_of_lt ?_ hfew
    refine ((((nodup_of_times (h.nodup n)).filter _).filter _).subperm fun y hy => ?_).length_le
    obtain ⟨hmem, hyx, hyok⟩ := mem_blockers.mp hy
    exact mem_blockers.mpr ⟨h.mem_of_le (Nat.zero_le n) (hyx.le.trans hT) hmem, hyx, hyok⟩
  obtain ⟨y, hy, hyok, hyx⟩ := exists_mem_batch (h.nodup n) hx hok hblockers
  have hgone : y ∉ items (n + 1) := fun hc => ((h.step n y (hyx.trans hT)).mp hc).2 ⟨hyok, hy⟩
  have hnodup : (y :: due time Ok x (items (n + 1))).Nodup := by
    refine List.nodup_cons.mpr ⟨fun hc => hgone (List.mem_of_mem_filter hc), ?_⟩
    exact (nodup_of_times (h.nodup (n + 1))).filter _
  have hsub : y :: due time Ok x (items (n + 1)) ⊆ due time Ok x (items n) := by
    intro z hz
    rcases List.mem_cons.mp hz with rfl | hz
    · exact List.mem_filter.mpr ⟨mem_of_mem_batch hy, decide_eq_true ⟨hyok, hyx⟩⟩
    · obtain ⟨hmem, hdue⟩ := List.mem_filter.mp hz
      have hzx := (of_decide_eq_true hdue).2
      exact List.mem_filter.mpr ⟨h.mem_of_succ (hzx.trans hT) hmem, hdue⟩
  exact (hnodup.subperm hsub).length_le

/-- An item leaves at some point if and only if it has few blockers. -/
theorem Drains.leaves_iff (h : Drains time Ok limit T items) (hT : time x ≤ T) (hok : Ok x)
    (hx : x ∈ items 0) :
    (∃ n, x ∉ items n) ↔ (blockers time Ok x (items 0)).length < limit := by
  constructor
  · rintro ⟨n, hn⟩
    by_contra hmany
    exact hn (h.stuck hT hx (not_lt.mp hmany) n)
  · intro hfew
    by_contra hstay
    have hall : ∀ n, x ∈ items n := fun n => by_contra fun hn => hstay ⟨n, hn⟩
    have hbound : ∀ n, (due time Ok x (items n)).length + n ≤ (due time Ok x (items 0)).length := by
      intro n
      induction n with
      | zero => exact le_rfl
      | succ n ih =>
        have := h.due_lt hT hok hfew (hall n)
        omega
    have := hbound ((due time Ok x (items 0)).length + 1)
    omega

/-- **All items leave** after finitely many batches if and only if each of them has few blockers. -/
theorem Drains.drained_iff (h : Drains time Ok limit T items) :
    (∃ n, ∀ x ∈ items 0, time x ≤ T → Ok x → x ∉ items n) ↔
      ∀ x ∈ items 0, time x ≤ T → Ok x → (blockers time Ok x (items 0)).length < limit := by
  constructor
  · rintro ⟨n, hn⟩ x hx hT hok
    exact (h.leaves_iff hT hok hx).mp ⟨n, hn x hx hT hok⟩
  · intro hfew
    have hleaves : ∀ x ∈ items 0, ∃ n, time x ≤ T → Ok x → x ∉ items n := by
      intro x hx
      by_cases hc : time x ≤ T ∧ Ok x
      · obtain ⟨n, hn⟩ := (h.leaves_iff hc.1 hc.2 hx).mpr (hfew x hx hc.1 hc.2)
        exact ⟨n, fun _ _ => hn⟩
      · exact ⟨0, fun hT hok => absurd ⟨hT, hok⟩ hc⟩
    choose! count hcount using hleaves
    refine ⟨((items 0).map count).sum, fun x hx hT hok hc => ?_⟩
    have hle : count x ≤ ((items 0).map count).sum :=
      List.le_sum_of_mem (List.mem_map_of_mem hx)
    exact hcount x hx hT hok (h.mem_of_le hle hT hc)

end Drain

end Backlog
