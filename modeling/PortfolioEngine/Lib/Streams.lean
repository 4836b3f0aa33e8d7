import Mathlib.Algebra.Order.Ring.Nat
import Mathlib.Data.List.Basic

/-!
# Append-only streams

A stream is the list of its entries, whose ids are positive and increase. `after i` is what a
reader at the id `i` has not seen, and `lastId` is the id that has seen everything.
-/

namespace Streams

variable {α : Type*}

structure Entry (α : Type*) where
  id : ℕ
  values : α
  deriving DecidableEq

/-- Entries with increasing ids above 0. -/
structure Stream (α : Type*) where
  entries : List (Entry α)
  ascending : (0 :: entries.map Entry.id).Pairwise (· < ·)

namespace Stream

variable (s : Stream α)

def empty : Stream α := ⟨[], List.pairwise_singleton _ 0⟩

/-- The id of the last entry, 0 for the empty stream. -/
def lastId : ℕ := (s.entries.getLast?.map Entry.id).getD 0

/-- The entries with an id above `i`. -/
def after (i : ℕ) : List (Entry α) := s.entries.filter fun x => i < x.id

theorem pairwise : s.entries.Pairwise fun x y => x.id < y.id :=
  List.pairwise_map.mp (List.pairwise_cons.mp s.ascending).2

theorem id_le_lastId {x : Entry α} (hx : x ∈ s.entries) : x.id ≤ s.lastId := by
  rcases List.eq_nil_or_concat' s.entries with h | ⟨l, y, h⟩
  · rw [h] at hx; cases hx
  · have hlast : s.lastId = y.id := by unfold lastId; rw [h, List.getLast?_concat]; rfl
    have hpair := s.pairwise
    rw [h] at hx hpair
    rw [hlast]
    rcases List.mem_append.mp hx with hx | hx
    · exact ((List.pairwise_append.mp hpair).2.2 x hx y (List.mem_singleton_self y)).le
    · exact (congrArg Entry.id (List.mem_singleton.mp hx)).le

/-- An entry with a new last id. -/
def xadd (e : Entry α) (h : s.lastId < e.id) : Stream α where
  entries := s.entries ++ [e]
  ascending := by
    rw [List.map_append, ← List.cons_append]
    refine List.pairwise_append.mpr ⟨s.ascending, List.pairwise_singleton _ _, fun i hi j hj => ?_⟩
    obtain rfl := List.mem_singleton.mp hj
    rcases List.mem_cons.mp hi with rfl | hi
    · exact Nat.zero_lt_of_lt h
    · obtain ⟨x, hx, rfl⟩ := List.mem_map.mp hi
      exact (s.id_le_lastId hx).trans_lt h

theorem after_eq_nil {i : ℕ} (h : s.lastId ≤ i) : s.after i = [] := by
  refine List.filter_eq_nil_iff.mpr fun x hx => ?_
  have hle := s.id_le_lastId hx
  simp only [decide_eq_true_eq]
  omega

variable {s}

theorem after_xadd {e : Entry α} (h : s.lastId < e.id) {i : ℕ} (hi : i ≤ s.lastId) :
    (s.xadd e h).after i = s.after i ++ [e] := by
  unfold after xadd
  rw [List.filter_append, List.filter_singleton]
  have hlt : i < e.id := by omega
  simp [hlt]

theorem lastId_xadd {e : Entry α} (h : s.lastId < e.id) : (s.xadd e h).lastId = e.id := by
  unfold lastId xadd
  rw [List.getLast?_concat]
  rfl

/-- What a reader at an entry has not seen is what follows it. -/
theorem after_of_split {l r : List (Entry α)} {x : Entry α} (h : s.entries = l ++ x :: r) :
    s.after x.id = r := by
  have hpair := s.pairwise
  rw [h] at hpair
  obtain ⟨_, hxr, hlx⟩ := List.pairwise_append.mp hpair
  unfold after
  rw [h, List.filter_append, List.filter_cons]
  have hl : l.filter (fun y => decide (x.id < y.id)) = [] := by
    refine List.filter_eq_nil_iff.mpr fun y hy => ?_
    have hlt := hlx y hy x List.mem_cons_self
    simp only [decide_eq_true_eq]
    omega
  have hr : r.filter (fun y => decide (x.id < y.id)) = r :=
    List.filter_eq_self.mpr fun y hy => decide_eq_true ((List.pairwise_cons.mp hxr).1 y hy)
  rw [hl, hr]
  simp

theorem after_of_append {l r : List (Entry α)} {i : ℕ} (h : s.entries = l ++ r)
    (hl : ∀ x ∈ l, x.id ≤ i) (hr : ∀ x ∈ r, i < x.id) : s.after i = r := by
  unfold after
  rw [h, List.filter_append, List.filter_eq_self.mpr fun x hx => decide_eq_true (hr x hx),
    List.filter_eq_nil_iff.mpr fun x hx => ?_, List.nil_append]
  rw [decide_eq_true_eq]
  exact not_lt.mpr (hl x hx)

theorem after_of_after {l r : List (Entry α)} {x : Entry α} {i : ℕ}
    (h : s.after i = l ++ x :: r) : s.after x.id = r := by
  obtain ⟨front, back, hentries, -, hback⟩ := List.filter_eq_append_iff.mp h
  obtain ⟨skipped, rest, rfl, hskipped, hx, hrest⟩ := List.filter_eq_cons_iff.mp hback
  have hi : i < x.id := of_decide_eq_true hx
  rw [← hrest, after_of_split (l := front ++ skipped) (r := rest) (by rw [hentries]; simp)]
  have hpair := s.pairwise
  rw [hentries, ← List.append_assoc, List.pairwise_append] at hpair
  refine (List.filter_eq_self.mpr fun y hy => decide_eq_true ?_).symm
  exact hi.trans ((List.pairwise_cons.mp hpair.2.1).1 y hy)

/-- The stream without its first `n` entries. -/
def drop (s : Stream α) (n : ℕ) : Stream α where
  entries := s.entries.drop n
  ascending := by
    rw [List.map_drop]
    exact s.ascending.sublist ((List.drop_sublist n _).cons_cons 0)

theorem id_pos {x : Entry α} (hx : x ∈ s.entries) : 0 < x.id :=
  (List.pairwise_cons.mp s.ascending).1 x.id (List.mem_map_of_mem hx)

theorem nodup (s : Stream α) : s.entries.Nodup :=
  s.pairwise.imp fun h => by rintro rfl; exact lt_irrefl _ h

end Stream

end Streams
