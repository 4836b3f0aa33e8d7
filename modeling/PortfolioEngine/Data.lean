import Mathlib.Algebra.Order.Field.Basic
import Mathlib.Data.Finset.Dedup
import Mathlib.Data.List.FinRange
import PortfolioEngine.Lib.Tables

/-!
# Shared data

Symbols, instants, the rows of the `prices` table and Python dictionaries keyed by symbol.
An instant is an integer: the microseconds since the epoch, in UTC.
-/

namespace PortfolioEngine

abbrev Symbol := String

def minute : ℤ := 60000000

def day : ℤ := 24 * 60 * minute

/-- `t.replace(second=0, microsecond=0)`. -/
def truncMinute (t : ℤ) : ℤ := t / minute * minute

theorem truncMinute_mono {s t : ℤ} (h : s ≤ t) : truncMinute s ≤ truncMinute t := by
  unfold truncMinute minute; omega

/-- A row of `prices`: one candle. -/
structure PriceRow (K : Type*) where
  time : ℤ
  symbol : Symbol
  opening : K
  high : K
  low : K
  close : K
  volume : K
  deriving DecidableEq

/-- The unique index `(symbol, time)` of `prices`. -/
def PriceRow.key {K : Type*} (r : PriceRow K) : Symbol × ℤ := (r.symbol, r.time)

/-! ## Dictionaries -/

/-- A Python dictionary keyed by symbol. -/
abbrev Dict (α : Type*) := List (Symbol × α)

namespace Dict

variable {α : Type*}

/-- The dictionary built from `pairs`, a later pair replacing an earlier one. -/
def ofPairs (pairs : List (Symbol × α)) : Dict α :=
  pairs.foldl (fun d p => Tables.upsert Prod.fst p d) []

/-- `d.get(symbol, default)`. -/
def getD (d : Dict α) (symbol : Symbol) (fallback : α) : α := (d.lookup symbol).getD fallback

/-- `set(d)`. -/
def keySet (d : Dict α) : Finset Symbol := (d.map Prod.fst).toFinset

theorem lookup_replace_of_ne {p : Symbol × α} {symbol : Symbol} (hs : symbol ≠ p.1) (d : Dict α) :
    (d.map fun x => if x.1 = p.1 then p else x).lookup symbol = d.lookup symbol := by
  induction d with
  | nil => rfl
  | cons x d ih =>
    rw [List.map_cons, List.lookup_cons, List.lookup_cons, ih]
    by_cases hx : x.1 = p.1
    · rw [if_pos hx, hx, beq_false_of_ne hs]
    · rw [if_neg hx]

theorem lookup_replace_self {p : Symbol × α} {d : Dict α} (h : p.1 ∈ d.map Prod.fst) :
    (d.map fun x => if x.1 = p.1 then p else x).lookup p.1 = some p.2 := by
  induction d with
  | nil => exact absurd h List.not_mem_nil
  | cons x d ih =>
    rw [List.map_cons, List.lookup_cons]
    by_cases hx : x.1 = p.1
    · rw [if_pos hx, beq_self_eq_true]
    · rw [if_neg hx, beq_false_of_ne (Ne.symm hx)]
      exact ih ((List.mem_cons.mp h).resolve_left (Ne.symm hx))

theorem lookup_upsert (p : Symbol × α) (d : Dict α) (symbol : Symbol) :
    (Tables.upsert Prod.fst p d).lookup symbol =
      if symbol = p.1 then some p.2 else d.lookup symbol := by
  unfold Tables.upsert
  by_cases hmem : p.1 ∈ d.map Prod.fst
  · rw [if_pos hmem]
    split_ifs with hs
    · rw [hs, lookup_replace_self hmem]
    · rw [lookup_replace_of_ne hs]
  · rw [if_neg hmem, List.lookup_append]
    split_ifs with hs
    · have hnone : d.lookup symbol = none := by
        refine List.lookup_eq_none_iff.mpr fun x hx => ?_
        rw [bne_iff_ne, hs]
        rintro he
        exact hmem (he ▸ List.mem_map_of_mem hx)
      rw [hnone, hs, List.lookup_cons, beq_self_eq_true]
      rfl
    · rw [List.lookup_cons, beq_false_of_ne hs, List.lookup_nil, Option.or_none]

theorem lookup_ofPairs {pairs : List (Symbol × α)} {f : Symbol → α}
    (h : ∀ p ∈ pairs, p.2 = f p.1) (symbol : Symbol) :
    (ofPairs pairs).lookup symbol =
      if symbol ∈ pairs.map Prod.fst then some (f symbol) else none := by
  have hfold : ∀ d : Dict α, (pairs.foldl (fun d p => Tables.upsert Prod.fst p d) d).lookup symbol =
      if symbol ∈ pairs.map Prod.fst then some (f symbol) else d.lookup symbol := by
    induction pairs with
    | nil => intro d; rfl
    | cons p pairs ih =>
      intro d
      rw [List.foldl_cons, ih fun q hq => h q (List.mem_cons_of_mem p hq), lookup_upsert]
      rw [List.map_cons]
      by_cases hmem : symbol ∈ pairs.map Prod.fst
      · rw [if_pos hmem, if_pos (List.mem_cons_of_mem p.1 hmem)]
      · rw [if_neg hmem]
        by_cases hs : symbol = p.1
        · rw [if_pos hs, if_pos (hs ▸ List.mem_cons_self), h p List.mem_cons_self, hs]
        · rw [if_neg hs, if_neg fun hc => (List.mem_cons.mp hc).elim hs hmem]
  exact hfold []

/-- A dictionary comprehension over `symbols` maps each of them to its value. -/
theorem getD_ofPairs_ofFn {n : ℕ} (symbols : Fin n → Symbol) (f : Symbol → α) (i : Fin n)
    (fallback : α) :
    (ofPairs (List.ofFn fun i => (symbols i, f (symbols i)))).getD (symbols i) fallback =
      f (symbols i) := by
  unfold getD
  rw [lookup_ofPairs (f := f), if_pos]
  · rfl
  · rw [List.map_ofFn]
    exact List.mem_ofFn.mpr ⟨i, rfl⟩
  · intro p hp
    obtain ⟨j, rfl⟩ := List.mem_ofFn.mp hp
    rfl

theorem ofPairs_of_nodup {pairs : List (Symbol × α)} (h : (pairs.map Prod.fst).Nodup) :
    ofPairs pairs = pairs := by
  induction pairs using List.reverseRecOn with
  | nil => rfl
  | append_singleton pairs p ih =>
    rw [List.map_append, List.map_singleton, List.nodup_append] at h
    have hp : p.1 ∉ pairs.map Prod.fst := fun hc => h.2.2 _ hc _ List.mem_cons_self rfl
    have hstep : ofPairs (pairs ++ [p]) = Tables.upsert Prod.fst p (ofPairs pairs) := by
      unfold ofPairs
      rw [List.foldl_append]
      rfl
    rw [hstep, ih h.1, Tables.upsert_of_not_mem hp]

theorem ofPairs_ofFn {n : ℕ} {symbols : Fin n → Symbol} (h : Function.Injective symbols)
    (f : Fin n → α) :
    ofPairs (List.ofFn fun i => (symbols i, f i)) = List.ofFn fun i => (symbols i, f i) := by
  apply ofPairs_of_nodup
  rw [List.map_ofFn]
  exact List.nodup_ofFn.mpr h

theorem lookup_ofPairs_ofFn {n : ℕ} {symbols : Fin n → Symbol} (h : Function.Injective symbols)
    (f : Fin n → α) (i : Fin n) :
    (ofPairs (List.ofFn fun i => (symbols i, f i))).lookup (symbols i) = some (f i) := by
  have hextend : ∀ j, f j = Function.extend symbols f (fun _ => f i) (symbols j) :=
    fun j => (h.extend_apply f _ j).symm
  rw [lookup_ofPairs (f := Function.extend symbols f fun _ => f i), if_pos]
  · rw [← hextend]
  · rw [List.map_ofFn]
    exact List.mem_ofFn.mpr ⟨i, rfl⟩
  · intro p hp
    obtain ⟨j, rfl⟩ := List.mem_ofFn.mp hp
    exact hextend j

theorem lookup_ofPairs_ofFn_of_ne {n : ℕ} {symbols : Fin n → Symbol}
    (h : Function.Injective symbols) (f : Fin n → α) {s : Symbol} (hs : ∀ i, symbols i ≠ s) :
    (ofPairs (List.ofFn fun i => (symbols i, f i))).lookup s = none := by
  rw [ofPairs_ofFn h]
  refine List.lookup_eq_none_iff.mpr fun p hp => ?_
  obtain ⟨i, rfl⟩ := List.mem_ofFn.mp hp
  rw [bne_iff_ne]
  exact (hs i).symm

theorem lookup_ofPairs_reorder {n : ℕ} {symbols : Fin n → Symbol} (h : Function.Injective symbols)
    (σ : Equiv.Perm (Fin n)) (f : Fin n → α) (s : Symbol) :
    (ofPairs (List.ofFn fun i => (symbols (σ i), f (σ i)))).lookup s =
      (ofPairs (List.ofFn fun i => (symbols i, f i))).lookup s := by
  have hσ : Function.Injective fun i => symbols (σ i) := h.comp σ.injective
  by_cases hs : ∃ i, symbols i = s
  · obtain ⟨i, rfl⟩ := hs
    have hfound := lookup_ofPairs_ofFn hσ (fun i => f (σ i)) (σ.symm i)
    rw [σ.apply_symm_apply] at hfound
    rw [hfound, lookup_ofPairs_ofFn h]
  · rw [lookup_ofPairs_ofFn_of_ne hσ _ fun i hi => hs ⟨σ i, hi⟩,
      lookup_ofPairs_ofFn_of_ne h _ fun i hi => hs ⟨i, hi⟩]

/-- A dictionary built from distinct symbols determines its values. -/
theorem ofPairs_ofFn_injective {n : ℕ} {symbols : Fin n → Symbol} (h : Function.Injective symbols)
    {f g : Fin n → α} (heq : ofPairs (List.ofFn fun i => (symbols i, f i)) =
      ofPairs (List.ofFn fun i => (symbols i, g i))) : f = g := by
  funext i
  have hlookup := congrArg (List.lookup (symbols i)) heq
  rw [lookup_ofPairs_ofFn h, lookup_ofPairs_ofFn h] at hlookup
  exact Option.some.inj hlookup

/-- What is found under the symbols determines the keys. -/
theorem mem_keySet {d : Dict α} {s : Symbol} : s ∈ d.keySet ↔ d.lookup s ≠ none := by
  unfold keySet
  rw [List.mem_toFinset, Ne, List.lookup_eq_none_iff, List.mem_map]
  simp only [bne_iff_ne, not_forall, not_not, exists_prop]
  exact ⟨fun ⟨p, hp, he⟩ => ⟨p, hp, he.symm⟩, fun ⟨p, hp, he⟩ => ⟨p, hp, he.symm⟩⟩

theorem keySet_congr {d d' : Dict α} (h : ∀ s, d'.lookup s = d.lookup s) :
    d'.keySet = d.keySet := by
  ext s
  rw [mem_keySet, mem_keySet, h]

theorem getD_congr {d d' : Dict α} (h : ∀ s, d'.lookup s = d.lookup s) (s : Symbol)
    (fallback : α) : d'.getD s fallback = d.getD s fallback := by
  unfold getD
  rw [h]

theorem lookup_filterMap {ρ : Type*} {symbol : ρ → Symbol} {find : Symbol → Option ρ}
    (h : ∀ s r, find s = some r → symbol r = s) (value : ρ → α) (l : List Symbol) (s : Symbol) :
    ((l.filterMap find).map fun r => (symbol r, value r)).lookup s =
      if s ∈ l then (find s).map value else none := by
  induction l with
  | nil => rfl
  | cons a l ih =>
    cases ha : find a with
    | none =>
      rw [List.filterMap_cons_none ha, ih]
      by_cases hs : s = a
      · rw [hs, ha, Option.map_none, ite_self, ite_self]
      · simp only [List.mem_cons, hs, false_or]
    | some r =>
      rw [List.filterMap_cons_some ha, List.map_cons, List.lookup_cons, h a r ha, ih]
      by_cases hs : s = a
      · rw [hs, beq_self_eq_true, if_pos List.mem_cons_self, ha]
        rfl
      · simp only [beq_false_of_ne hs, List.mem_cons, hs, false_or]

/-- The dictionary with `f` applied to its values. -/
def mapValues {β : Type*} (f : α → β) (d : Dict α) : Dict β := d.map fun p => (p.1, f p.2)

section MapValues

variable {β : Type*} (f : α → β)

theorem keySet_mapValues (d : Dict α) : (mapValues f d).keySet = d.keySet := by
  unfold keySet mapValues
  rw [List.map_map]
  rfl

theorem lookup_mapValues (d : Dict α) (symbol : Symbol) :
    (mapValues f d).lookup symbol = (d.lookup symbol).map f := by
  unfold mapValues
  induction d with
  | nil => rfl
  | cons p d ih =>
    rw [List.map_cons, List.lookup_cons, List.lookup_cons, ih]
    cases symbol == p.1 with
    | true => rfl
    | false => rfl

theorem getD_mapValues (d : Dict α) (symbol : Symbol) (fallback : α) :
    (mapValues f d).getD symbol (f fallback) = f (d.getD symbol fallback) := by
  unfold getD
  rw [lookup_mapValues, Option.getD_map]

theorem ofPairs_map (pairs : List (Symbol × α)) :
    ofPairs (pairs.map fun p => (p.1, f p.2)) = mapValues f (ofPairs pairs) := by
  unfold ofPairs mapValues
  induction pairs using List.reverseRecOn with
  | nil => rfl
  | append_singleton pairs p ih =>
    rw [List.map_append, List.map_singleton, List.foldl_concat, List.foldl_concat, ih]
    exact Tables.upsert_map (fun _ => rfl) p _

end MapValues

end Dict

end PortfolioEngine
