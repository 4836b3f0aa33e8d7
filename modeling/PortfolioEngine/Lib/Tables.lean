import Mathlib.Data.List.MinMax
import Mathlib.Data.List.Nodup

/-!
# Keyed tables

A table is the list of its rows, in the order of insertion, with a key that the rows do not
share. `insertNew` is an insert that does nothing on a conflict, `upsert` one that replaces the
conflicting row, and `latest` is the row of the greatest timestamp.
-/

namespace Tables

variable {ρ κ τ : Type*}

section Insert

variable [DecidableEq κ] (key : ρ → κ)

/-- Insert, doing nothing if the key is taken. -/
def insertNew (r : ρ) (t : List ρ) : List ρ := if key r ∈ t.map key then t else t ++ [r]

/-- Insert, replacing the row with the same key. -/
def upsert (r : ρ) (t : List ρ) : List ρ :=
  if key r ∈ t.map key then t.map fun x => if key x = key r then r else x else t ++ [r]

variable {key}

theorem insertNew_of_mem {r : ρ} {t : List ρ} (h : key r ∈ t.map key) : insertNew key r t = t := by
  unfold insertNew; rw [if_pos h]

theorem insertNew_of_not_mem {r : ρ} {t : List ρ} (h : key r ∉ t.map key) :
    insertNew key r t = t ++ [r] := by
  unfold insertNew; rw [if_neg h]

theorem prefix_insertNew (key : ρ → κ) (r : ρ) (t : List ρ) : t <+: insertNew key r t := by
  unfold insertNew
  split_ifs
  · exact List.prefix_refl t
  · exact List.prefix_append t [r]

theorem mem_insertNew {r x : ρ} {t : List ρ} :
    x ∈ insertNew key r t ↔ x ∈ t ∨ key r ∉ t.map key ∧ x = r := by
  unfold insertNew
  split_ifs with h
  · simp [h]
  · simp [h]

theorem insertNew_map {f : ρ → ρ} (hf : ∀ x, key (f x) = key x) (r : ρ) (t : List ρ) :
    insertNew key (f r) (t.map f) = (insertNew key r t).map f := by
  have hkeys : (t.map f).map key = t.map key := by
    rw [List.map_map]
    exact List.map_congr_left fun x _ => hf x
  unfold insertNew
  rw [hkeys, hf]
  split_ifs
  · rfl
  · rw [List.map_append, List.map_singleton]

omit [DecidableEq κ] in
theorem eq_of_key_eq {t : List ρ} (h : (t.map key).Nodup) {x y : ρ} (hx : x ∈ t) (hy : y ∈ t)
    (he : key x = key y) : x = y :=
  List.inj_on_of_nodup_map h hx hy he

theorem filter_key_eq {t : List ρ} (h : (t.map key).Nodup) {x : ρ} (hx : x ∈ t) :
    (t.filter fun y => key y = key x) = [x] := by
  obtain ⟨before, after, rfl⟩ := List.append_of_mem hx
  rw [List.map_append, List.map_cons, List.nodup_append, List.nodup_cons] at h
  obtain ⟨_, ⟨hafter, _⟩, hbefore⟩ := h
  rw [List.filter_append, List.filter_eq_nil_iff.mpr, List.filter_cons_of_pos (by simp),
    List.filter_eq_nil_iff.mpr, List.nil_append]
  · intro y hy he
    exact hafter (of_decide_eq_true he ▸ List.mem_map_of_mem hy)
  · intro y hy he
    exact hbefore _ (List.mem_map_of_mem hy) _ List.mem_cons_self (of_decide_eq_true he)

theorem nodup_insertNew {r : ρ} {t : List ρ} (h : (t.map key).Nodup) :
    ((insertNew key r t).map key).Nodup := by
  unfold insertNew
  split_ifs with hr
  · exact h
  · rw [List.map_append, List.map_singleton]
    exact List.nodup_append.mpr ⟨h, List.nodup_singleton _, fun a ha b hb => by
      rintro rfl; exact hr (List.mem_singleton.mp hb ▸ ha)⟩

theorem eq_or_mem_of_mem_upsert {r y : ρ} {t : List ρ} (hy : y ∈ upsert key r t) :
    y = r ∨ y ∈ t := by
  unfold upsert at hy
  split_ifs at hy
  · obtain ⟨x, hx, rfl⟩ := List.mem_map.mp hy
    split_ifs
    · exact Or.inl rfl
    · exact Or.inr hx
  · rcases List.mem_append.mp hy with hy | hy
    · exact Or.inr hy
    · exact Or.inl (List.mem_singleton.mp hy)

theorem upsert_of_not_mem {r : ρ} {t : List ρ} (h : key r ∉ t.map key) :
    upsert key r t = t ++ [r] := by
  unfold upsert; rw [if_neg h]

theorem upsert_of_lt [Preorder κ] {r : ρ} {t : List ρ} (h : ∀ x ∈ t, key x < key r) :
    upsert key r t = t ++ [r] := by
  refine upsert_of_not_mem fun hr => ?_
  obtain ⟨x, hx, he⟩ := List.mem_map.mp hr
  exact (h x hx).ne he

end Insert

section Latest

variable [LinearOrder τ] (time : ρ → τ)

/-- The row with the greatest timestamp. -/
def latest (t : List ρ) : Option ρ := t.argmax time

variable {time}

theorem mem_of_latest {t : List ρ} {r : ρ} (h : latest time t = some r) : r ∈ t :=
  List.argmax_mem h

theorem le_of_latest {t : List ρ} {r x : ρ} (h : latest time t = some r) (hx : x ∈ t) :
    time x ≤ time r :=
  List.le_of_mem_argmax hx h

theorem latest_eq_none {t : List ρ} : latest time t = none ↔ t = [] := List.argmax_eq_none

theorem latest_isSome (time : ρ → τ) {t : List ρ} {x : ρ} (hx : x ∈ t) :
    ∃ r, latest time t = some r := by
  cases h : latest time t with
  | some r => exact ⟨r, rfl⟩
  | none =>
    rw [latest_eq_none.mp h] at hx
    exact absurd hx List.not_mem_nil

theorem mem_upsert_self (time : ρ → τ) (r : ρ) (t : List ρ) : r ∈ upsert time r t := by
  unfold upsert
  split_ifs with h
  · obtain ⟨x, hx, he⟩ := List.mem_map.mp h
    exact List.mem_map.mpr ⟨x, hx, if_pos he⟩
  · exact List.mem_append_right t (List.mem_singleton.mpr rfl)

theorem eq_of_mem_upsert {r y : ρ} {t : List ρ} (hy : y ∈ upsert time r t)
    (he : time y = time r) : y = r := by
  unfold upsert at hy
  split_ifs at hy with h
  · obtain ⟨x, _, rfl⟩ := List.mem_map.mp hy
    split_ifs at he ⊢ with hx
    · rfl
    · exact absurd he hx
  · rcases List.mem_append.mp hy with hy | hy
    · exact absurd (he ▸ List.mem_map_of_mem hy) h
    · exact List.mem_singleton.mp hy

theorem exists_mem_upsert (time : ρ → τ) (r : ρ) {x : ρ} {t : List ρ} (hx : x ∈ t) :
    ∃ y ∈ upsert time r t, time y = time x := by
  unfold upsert
  split_ifs with h
  · by_cases he : time x = time r
    · exact ⟨r, List.mem_map.mpr ⟨x, hx, if_pos he⟩, he.symm⟩
    · exact ⟨x, List.mem_map.mpr ⟨x, hx, if_neg he⟩, rfl⟩
  · exact ⟨x, List.mem_append_left _ hx, rfl⟩

theorem mem_of_mem_upsert {r y : ρ} {t : List ρ} (hy : y ∈ upsert time r t) : y = r ∨ y ∈ t := by
  unfold upsert at hy
  split_ifs at hy
  · obtain ⟨x, hx, rfl⟩ := List.mem_map.mp hy
    split_ifs
    · exact Or.inl rfl
    · exact Or.inr hx
  · rcases List.mem_append.mp hy with hy | hy
    · exact Or.inr hy
    · exact Or.inl (List.mem_singleton.mp hy)

/-- A row at or after every other one is the latest once it is upserted. -/
theorem latest_upsert {r : ρ} {t : List ρ} (h : ∀ x ∈ t, time x ≤ time r) :
    latest time (upsert time r t) = some r := by
  have hr := mem_upsert_self time r t
  obtain ⟨y, hy⟩ := latest_isSome time hr
  have hyr : time y ≤ time r := by
    rcases mem_of_mem_upsert (mem_of_latest hy) with rfl | hm
    · exact le_rfl
    · exact h y hm
  rw [hy, eq_of_mem_upsert (mem_of_latest hy) (le_antisymm hyr (le_of_latest hy hr))]

end Latest

/-! ## Rows under a map that keeps the key -/

section Map

variable {ρ' : Type*}

theorem latest_map [LinearOrder τ] {time : ρ → τ} {time' : ρ' → τ} {f : ρ → ρ'}
    (h : ∀ r, time' (f r) = time r) (t : List ρ) :
    latest time' (t.map f) = (latest time t).map f := by
  unfold latest
  induction t using List.reverseRecOn with
  | nil => rfl
  | append_singleton t r ih =>
    rw [List.map_append, List.map_singleton, List.argmax_concat, List.argmax_concat, ih]
    cases t.argmax time with
    | none => rfl
    | some x =>
      dsimp only [Option.map_some]
      rw [h, h, apply_ite (Option.map f)]
      rfl

theorem upsert_map [DecidableEq κ] {key : ρ → κ} {key' : ρ' → κ} {f : ρ → ρ'}
    (h : ∀ r, key' (f r) = key r) (r : ρ) (t : List ρ) :
    upsert key' (f r) (t.map f) = (upsert key r t).map f := by
  have hkeys : (t.map f).map key' = t.map key := by
    rw [List.map_map]
    exact List.map_congr_left fun x _ => h x
  unfold upsert
  rw [h, hkeys]
  split_ifs
  · rw [List.map_map, List.map_map]
    refine List.map_congr_left fun x _ => ?_
    simp only [Function.comp_apply, h, apply_ite f]
  · rw [List.map_append, List.map_singleton]

end Map

/-! ## Replay -/

section Replay

variable {σ ω : Type*}

/-- An operation that has been applied before changes nothing. -/
def Absorbing (apply : σ → ω → σ) : Prop :=
  ∀ (ops : List ω) (s : σ), ∀ o ∈ ops, apply (ops.foldl apply s) o = ops.foldl apply s

/-- Applying again the operation at a place that has been reached before, or the next one. -/
theorem Absorbing.replay {apply : σ → ω → σ} (h : Absorbing apply) {ops : List ω} {i k : ℕ} {o : ω}
    (ho : ops[i]? = some o) (hik : i ≤ k) (s : σ) :
    apply ((ops.take k).foldl apply s) o = (ops.take (max k (i + 1))).foldl apply s := by
  obtain ⟨hi, rfl⟩ := List.getElem?_eq_some_iff.mp ho
  rcases hik.eq_or_lt with rfl | hlt
  · rw [max_eq_right (Nat.le_succ i), List.take_succ_eq_append_getElem hi, List.foldl_concat]
  · rw [max_eq_left hlt]
    exact h _ _ _ (List.mem_take_iff_getElem.mpr ⟨i, lt_min hlt hi, rfl⟩)

variable [DecidableEq κ] (key : ρ → κ)

/-- Insert the row, if there is one. -/
def insertSome (t : List ρ) : Option ρ → List ρ
  | some r => insertNew key r t
  | none => t

theorem mem_keys_insertNew (r : ρ) (t : List ρ) : key r ∈ (insertNew key r t).map key := by
  unfold insertNew
  split_ifs with h
  · exact h
  · exact List.mem_map_of_mem (List.mem_append_right t (List.mem_singleton_self r))

theorem prefix_insertSome (t : List ρ) (o : Option ρ) : t <+: insertSome key t o := by
  cases o with
  | none => exact List.prefix_refl t
  | some r => exact prefix_insertNew key r t

theorem mem_of_mem_insertSome {t : List ρ} {o : Option ρ} {x : ρ} (h : x ∈ insertSome key t o) :
    x ∈ t ∨ o = some x := by
  cases o with
  | none => exact Or.inl h
  | some r => exact (mem_insertNew.mp h).imp_right fun h => congrArg some h.2.symm

theorem prefix_foldl_insertSome (t : List ρ) (ops : List (Option ρ)) :
    t <+: ops.foldl (insertSome key) t := by
  induction ops generalizing t with
  | nil => exact List.prefix_refl t
  | cons o ops ih => exact (prefix_insertSome key t o).trans (ih _)

/-- The first row of a key stays, so an insert can be replayed. -/
theorem absorbing_insertSome : Absorbing (insertSome key) := by
  intro ops t o ho
  cases o with
  | none => rfl
  | some r =>
    obtain ⟨before, after, rfl⟩ := List.append_of_mem ho
    rw [List.foldl_append, List.foldl_cons]
    refine insertNew_of_mem ?_
    have hpre := prefix_foldl_insertSome key (insertSome key (before.foldl (insertSome key) t)
      (some r)) after
    exact (hpre.map key).subset (mem_keys_insertNew key r _)

end Replay

/-! ## The rows of one kind -/

section Kinds

variable {ι : Type*} [DecidableEq ι] (kind : ρ → ι) (i : ι)

/-- The rows of the kind `i`. -/
def ofKind (t : List ρ) : List ρ := t.filter fun r => kind r = i

variable {kind i}

theorem mem_ofKind {r : ρ} {t : List ρ} : r ∈ ofKind kind i t ↔ r ∈ t ∧ kind r = i := by
  simp [ofKind]

theorem ofKind_concat (r : ρ) (t : List ρ) :
    ofKind kind i (t ++ [r]) = if kind r = i then ofKind kind i t ++ [r] else ofKind kind i t := by
  unfold ofKind
  rw [List.filter_append, List.filter_singleton]
  split_ifs with h
  · simp [h]
  · simp [h]

theorem filter_ofKind {p : ρ → Bool} (hp : ∀ r, p r = true → kind r = i) (t : List ρ) :
    (ofKind kind i t).filter p = t.filter p := by
  unfold ofKind
  rw [List.filter_filter]
  refine List.filter_congr fun r _ => ?_
  cases hr : p r with
  | false => rfl
  | true => simp [hp r hr]

/-- A change of rows that keeps their kind is a change of the rows of the kind. -/
theorem ofKind_map {f : ρ → ρ} (hf : ∀ r, kind (f r) = kind r) (t : List ρ) :
    ofKind kind i (t.map f) = (ofKind kind i t).map f := by
  unfold ofKind
  rw [List.filter_map]
  refine congrArg (List.map f) (List.filter_congr fun r _ => ?_)
  simp [hf r]

variable [DecidableEq κ] {key : ρ → κ}

omit [DecidableEq κ] in
/-- If the key tells the kind, the key is taken by a row of the kind or not at all. -/
theorem mem_keys_ofKind (hkey : ∀ x y, key x = key y → kind x = kind y) {r : ρ} (hr : kind r = i)
    {t : List ρ} : key r ∈ (ofKind kind i t).map key ↔ key r ∈ t.map key := by
  constructor
  · intro h
    obtain ⟨x, hx, hxr⟩ := List.mem_map.mp h
    exact List.mem_map.mpr ⟨x, (mem_ofKind.mp hx).1, hxr⟩
  · intro h
    obtain ⟨x, hx, hxr⟩ := List.mem_map.mp h
    exact List.mem_map.mpr ⟨x, mem_ofKind.mpr ⟨hx, (hkey x r hxr).trans hr⟩, hxr⟩

/-- An insert goes by the rows of its kind. -/
theorem ofKind_insertNew (hkey : ∀ x y, key x = key y → kind x = kind y) (r : ρ) (t : List ρ) :
    ofKind kind i (insertNew key r t) =
      if kind r = i then insertNew key r (ofKind kind i t) else ofKind kind i t := by
  unfold insertNew
  split_ifs with hmem hr hown hr hown
  · rfl
  · exact absurd ((mem_keys_ofKind hkey hr).mpr hmem) hown
  · rfl
  · exact absurd ((mem_keys_ofKind hkey hr).mp hown) hmem
  · rw [ofKind_concat, if_pos hr]
  · rw [ofKind_concat, if_neg hr]

end Kinds

end Tables
