import Mathlib.Data.List.Count
import Mathlib.Data.List.Sort
import PortfolioEngine.Features.Consume
import PortfolioEngine.Features.RealNumerics

/-!
# Redelivered candles

A stream in which a candle can come more than once, with the same content, is the list of its keys
and a content for each key. The tables drop a repeated candle; the ring buffers do not.

`redelivery_iff`: dropping the repeats changes no table, whatever the candles hold, exactly if no
repeat makes a candle warm that is not warm without the repeats, and the newest 61 timestamps in
the ring buffer of a candle are the same without them.
-/

namespace PortfolioEngine.Features

open Recent Tables

variable {K : Type*} [Field K] [LinearOrder K]

/-! ## Streams by their keys -/

/-- What the candles hold, one for each key. -/
def Contents (K : Type*) := { content : Symbol × ℤ → PriceRow K // ∀ k, (content k).key = k }

instance : CoeFun (Contents K) fun _ => Symbol × ℤ → PriceRow K := ⟨Subtype.val⟩

/-- The stream without its repeats. -/
def firsts (ks : List (Symbol × ℤ)) : List (Symbol × ℤ) :=
  ks.foldl (fun acc k => insertNew id k acc) []

/-- The keys in the ring buffer of `k` after `ks`. -/
def window (ks : List (Symbol × ℤ)) (k : Symbol × ℤ) : List (Symbol × ℤ) :=
  ((ks ++ [k]).filter fun x => x.1 = k.1).rtake bufferSize

/-- Their timestamps in order. -/
def sortedTimes (ks : List (Symbol × ℤ)) (k : Symbol × ℤ) : List ℤ :=
  ((window ks k).map Prod.snd).mergeSort (· ≤ ·)

/-- The ring buffer of `k` is long enough for a row. -/
def WarmKey (ks : List (Symbol × ℤ)) (k : Symbol × ℤ) : Prop := minBuffer ≤ (window ks k).length

/-- For each key, where it comes first: if its buffer is warm without the repeats, the newest 61
timestamps are the same with them; otherwise no repeat of it meets a warm buffer. -/
def Harmless (ks : List (Symbol × ℤ)) : Prop :=
  ∀ ks₁ k, ks₁ ++ [k] <+: ks → k ∉ ks₁ →
    (WarmKey (firsts ks₁) k →
      (sortedTimes ks₁ k).rtake 61 = (sortedTimes (firsts ks₁) k).rtake 61) ∧
    (¬ WarmKey (firsts ks₁) k → ∀ ks₂, ks₂ ++ [k] <+: ks → ¬ WarmKey ks₂ k)

/-- Equal tables; the order of the rows of `features` does not matter. -/
def SameTables (st st' : Stores K) : Prop :=
  st.prices = st'.prices ∧ ∀ r, r ∈ st.features ↔ r ∈ st'.features

/-! ## Dropping repeats -/

section Firsts

variable {ks : List (Symbol × ℤ)} {k : Symbol × ℤ}

theorem mem_firsts : k ∈ firsts ks ↔ k ∈ ks := by
  induction ks using List.reverseRecOn with
  | nil => rfl
  | append_singleton ks x ih =>
    unfold firsts at ih ⊢
    rw [List.foldl_concat, mem_insertNew, List.mem_append, List.mem_singleton, ih, List.map_id]
    by_cases hx : k = x
    · subst hx
      simp [ih, em]
    · simp [hx]

theorem firsts_concat_of_mem (h : k ∈ ks) : firsts (ks ++ [k]) = firsts ks := by
  have hmem : id k ∈ (firsts ks).map id := by rw [List.map_id]; exact mem_firsts.mpr h
  unfold firsts at hmem ⊢
  rw [List.foldl_concat, insertNew_of_mem hmem]

theorem firsts_concat_of_not_mem (h : k ∉ ks) : firsts (ks ++ [k]) = firsts ks ++ [k] := by
  have hmem : id k ∉ (firsts ks).map id := by rw [List.map_id]; exact fun hk => h (mem_firsts.mp hk)
  unfold firsts at hmem ⊢
  rw [List.foldl_concat, insertNew_of_not_mem hmem]

theorem nodup_firsts : (firsts ks).Nodup := by
  induction ks using List.reverseRecOn with
  | nil => exact List.nodup_nil
  | append_singleton ks x ih =>
    by_cases hx : x ∈ ks
    · rw [firsts_concat_of_mem hx]; exact ih
    · rw [firsts_concat_of_not_mem hx]
      refine List.nodup_append.mpr ⟨ih, List.nodup_singleton x, ?_⟩
      rintro a ha b hb rfl
      exact hx (mem_firsts.mp (List.mem_singleton.mp hb ▸ ha))

theorem firsts_sublist : (firsts ks).Sublist ks := by
  induction ks using List.reverseRecOn with
  | nil => exact List.Sublist.refl _
  | append_singleton ks x ih =>
    by_cases hx : x ∈ ks
    · rw [firsts_concat_of_mem hx]; exact ih.trans (List.sublist_append_left ks [x])
    · rw [firsts_concat_of_not_mem hx]; exact ih.append_right [x]

theorem prefix_firsts {ms : List (Symbol × ℤ)} :
    ms ++ [k] <+: firsts ks ↔ ∃ ks₁, ks₁ ++ [k] <+: ks ∧ k ∉ ks₁ ∧ ms = firsts ks₁ := by
  induction ks using List.reverseRecOn with
  | nil =>
    constructor
    · exact fun h => absurd h not_concat_prefix_nil
    · exact fun ⟨_, h, _⟩ => absurd h not_concat_prefix_nil
  | append_singleton ks x ih =>
    have hright : (∃ ks₁, ks₁ ++ [k] <+: ks ++ [x] ∧ k ∉ ks₁ ∧ ms = firsts ks₁) ↔
        ms ++ [k] <+: firsts ks ∨ k ∉ ks ∧ k = x ∧ ms = firsts ks := by
      rw [ih]
      constructor
      · rintro ⟨ks₁, hpre, hk, rfl⟩
        rcases concat_prefix_concat.mp hpre with hpre | ⟨rfl, rfl⟩
        · exact Or.inl ⟨ks₁, hpre, hk, rfl⟩
        · exact Or.inr ⟨hk, rfl, rfl⟩
      · rintro (⟨ks₁, hpre, h⟩ | ⟨hk, rfl, rfl⟩)
        · exact ⟨ks₁, hpre.trans (List.prefix_append ks [x]), h⟩
        · exact ⟨ks, List.prefix_refl _, hk, rfl⟩
    rw [hright]
    by_cases hx : x ∈ ks
    · rw [firsts_concat_of_mem hx]
      exact ⟨Or.inl, fun h => h.resolve_right fun hc => hc.1 (hc.2.1 ▸ hx)⟩
    · rw [firsts_concat_of_not_mem hx, concat_prefix_concat]
      refine or_congr Iff.rfl ⟨fun h => ⟨h.2 ▸ hx, h.2, h.1⟩, fun h => ⟨h.2.2, h.2.1⟩⟩

end Firsts

/-! ## From keys to candles -/

section Keys

variable (content : Contents K) {ks ks₁ : List (Symbol × ℤ)} {k : Symbol × ℤ}

omit [Field K] [LinearOrder K] in
theorem Contents.symbol (k : Symbol × ℤ) : (content k).symbol = k.1 :=
  congrArg Prod.fst (content.2 k)

omit [Field K] [LinearOrder K] in
theorem Contents.time (k : Symbol × ℤ) : (content k).time = k.2 :=
  congrArg Prod.snd (content.2 k)

omit [Field K] [LinearOrder K] in
theorem buffer_map (ks : List (Symbol × ℤ)) (k : Symbol × ℤ) :
    buffer (ks.map content) (content k) = (window ks k).map content := by
  have hp : ((fun r : PriceRow K => decide (r.symbol = (content k).symbol)) ∘ content.1) =
      fun x => decide (x.1 = k.1) := by
    funext x
    show decide ((content x).symbol = (content k).symbol) = _
    rw [content.symbol, content.symbol]
  unfold buffer window
  rw [← rtake_map, ← hp, ← List.filter_map, List.map_append, List.map_singleton]

omit [Field K] [LinearOrder K] in
theorem warm_map : Warm (ks.map content) (content k) ↔ WarmKey ks k := by
  unfold Warm WarmKey
  rw [buffer_map, List.length_map]

omit [Field K] [LinearOrder K] in
theorem exists_prefix_of_map {es₁ : List (PriceRow K)} {c : PriceRow K}
    (h : es₁ ++ [c] <+: ks.map content) :
    ∃ ks₁ k, ks₁ ++ [k] <+: ks ∧ es₁ = ks₁.map content ∧ c = content k := by
  obtain ⟨l, hl, hmap⟩ := List.prefix_map_iff.mp h
  obtain ⟨ks₁, l₂, rfl, h₁, h₂⟩ := List.map_eq_append_iff.mp hmap.symm
  obtain ⟨k, rfl, rfl⟩ := List.map_eq_singleton_iff.mp h₂
  exact ⟨ks₁, k, hl, h₁.symm, rfl⟩

omit [Field K] [LinearOrder K] in
theorem prefix_map_concat (h : ks₁ ++ [k] <+: ks) :
    ks₁.map content ++ [content k] <+: ks.map content := by
  have hmap := h.map content.1
  rwa [List.map_append] at hmap

/-- An occurrence of `k` has met a warm buffer. -/
def ComputedKey (ks : List (Symbol × ℤ)) (k : Symbol × ℤ) : Prop :=
  ∃ ks₁, ks₁ ++ [k] <+: ks ∧ WarmKey ks₁ k

omit [Field K] [LinearOrder K] in
theorem computed_map : Computed (ks.map content) k ↔ ComputedKey ks k := by
  constructor
  · rintro ⟨es₁, c, hpre, hkey, hwarm⟩
    obtain ⟨ks₁, k', hpre', rfl, rfl⟩ := exists_prefix_of_map content hpre
    obtain rfl := (content.2 k').symm.trans hkey
    exact ⟨ks₁, hpre', (warm_map content).mp hwarm⟩
  · rintro ⟨ks₁, hpre, hwarm⟩
    exact ⟨_, _, prefix_map_concat content hpre, content.2 k, (warm_map content).mpr hwarm⟩

theorem mem_features_map (P : Numerics K) {r : FeatureRow K} :
    r ∈ (consume P (ks.map content)).features ↔
      ∃ ks₁ k, ks₁ ++ [k] <+: ks ∧ WarmKey ks₁ k ∧ ¬ ComputedKey ks₁ k ∧
        r = rowFor P (ks₁.map content) (content k) := by
  rw [mem_features]
  constructor
  · rintro ⟨es₁, c, hpre, ⟨hwarm, hnew⟩, rfl⟩
    obtain ⟨ks₁, k, hpre', rfl, rfl⟩ := exists_prefix_of_map content hpre
    rw [content.2, computed_map] at hnew
    exact ⟨ks₁, k, hpre', (warm_map content).mp hwarm, hnew, rfl⟩
  · rintro ⟨ks₁, k, hpre, hwarm, hnew, rfl⟩
    refine ⟨_, _, prefix_map_concat content hpre, ⟨(warm_map content).mpr hwarm, ?_⟩, rfl⟩
    rw [content.2, computed_map]
    exact hnew

theorem length_sortedTimes (ks : List (Symbol × ℤ)) (k : Symbol × ℤ) :
    (sortedTimes ks k).length = (window ks k).length := by
  unfold sortedTimes
  rw [List.length_mergeSort, List.length_map]

theorem pairwise_sortedTimes (ks : List (Symbol × ℤ)) (k : Symbol × ℤ) :
    (sortedTimes ks k).Pairwise (· ≤ ·) := List.pairwise_mergeSort' (· ≤ ·) _

omit [Field K] [LinearOrder K] in
theorem bufferToDf_map (P : Numerics K) (ks : List (Symbol × ℤ)) (k : Symbol × ℤ) :
    bufferToDf P (buffer (ks.map content) (content k)) =
      (sortedTimes ks k).map fun t => content (k.1, t) := by
  set df := bufferToDf P (buffer (ks.map content) (content k)) with hdf
  have hperm : df.Perm ((window ks k).map content) := by
    rw [← buffer_map]
    exact P.sortIndex_perm _
  have htimes : df.map PriceRow.time = sortedTimes ks k := by
    have hsorted : (df.map PriceRow.time).Pairwise (· ≤ ·) :=
      List.pairwise_map.mpr (P.sortIndex_sorted _)
    refine List.Perm.eq_of_pairwise' hsorted (pairwise_sortedTimes ks k) ?_
    refine (hperm.map PriceRow.time).trans ?_
    unfold sortedTimes
    rw [List.map_map]
    have hsnd : PriceRow.time ∘ content.1 = Prod.snd := funext fun x => content.time x
    show ((window ks k).map (PriceRow.time ∘ content.1)).Perm _
    rw [hsnd]
    exact (List.mergeSort_perm _ _).symm
  rw [← htimes, List.map_map]
  conv_lhs => rw [← List.map_id df]
  refine List.map_congr_left fun r hr => ?_
  obtain ⟨x, hx, rfl⟩ := List.mem_map.mp (hperm.mem_iff.mp hr)
  have hsymbol : x.1 = k.1 :=
    of_decide_eq_true (List.mem_filter.mp (mem_of_mem_rtake hx)).2
  show content x = content (k.1, (content x).time)
  rw [content.time, ← hsymbol]

theorem rowFor_map (P : Numerics K) (ks : List (Symbol × ℤ)) (k : Symbol × ℤ) :
    rowFor P (ks.map content) (content k) = featureRow (content k).time (content k).symbol
      (latestFeatureRow P ((sortedTimes ks k).map fun t => content (k.1, t))) := by
  unfold rowFor
  rw [bufferToDf_map]

theorem WarmKey.le (h : WarmKey ks k) : 62 ≤ (sortedTimes ks k).length := by
  rw [length_sortedTimes]
  exact h

/-- Rows of buffers with the same newest 61 timestamps are the same. -/
theorem rowFor_congr (P : Numerics K) {ks ks' : List (Symbol × ℤ)} (h : WarmKey ks k)
    (h' : WarmKey ks' k) (heq : (sortedTimes ks k).rtake 61 = (sortedTimes ks' k).rtake 61) :
    rowFor P (ks.map content) (content k) = rowFor P (ks'.map content) (content k) := by
  have htail : SameTail 61 (sortedTimes ks k) (sortedTimes ks' k) :=
    ⟨(by decide : 61 ≤ 62).trans h.le, (by decide : 61 ≤ 62).trans h'.le, heq⟩
  rw [rowFor_map, rowFor_map, latestFeatureRow_congr (htail.map _)]

end Keys

/-! ## Dropping repeats from a harmless stream -/

section Harmless

variable {ks ks₁ ks₂ : List (Symbol × ℤ)} {k : Symbol × ℤ}

/-- A key that is warm without repeats is warm with them. -/
theorem WarmKey.of_firsts (h : WarmKey (firsts ks) k) : WarmKey ks k := by
  unfold WarmKey window at h ⊢
  rw [length_rtake] at h ⊢
  have hfirsts : (firsts ks).Sublist ks := firsts_sublist
  have hsub := (hfirsts.append_right [k]).filter fun x => decide (x.1 = k.1)
  have hlen := hsub.length_le
  omega

theorem mem_of_prefix_concat {α : Type*} {l s : List α} {x : α} (h : l ++ [x] <+: s) : x ∈ s :=
  h.subset (List.mem_append_right l (List.mem_singleton_self x))

theorem not_computedKey (h : k ∉ ks) : ¬ ComputedKey ks k := fun ⟨_, hpre, _⟩ =>
  h (mem_of_prefix_concat hpre)

theorem exists_first (h : k ∈ ks) : ∃ ks₁, ks₁ ++ [k] <+: ks ∧ k ∉ ks₁ := by
  have hmem : k ∈ firsts ks := mem_firsts.mpr h
  obtain ⟨l, l', hl⟩ := List.append_of_mem hmem
  have hpre : l ++ [k] <+: firsts ks := ⟨l', by rw [hl]; simp⟩
  obtain ⟨ks₁, hks₁, hk, _⟩ := prefix_firsts.mp hpre
  exact ⟨ks₁, hks₁, hk⟩

theorem first_unique (h₁ : ks₁ ++ [k] <+: ks) (hk₁ : k ∉ ks₁) (h₂ : ks₂ ++ [k] <+: ks)
    (hk₂ : k ∉ ks₂) : ks₁ = ks₂ := by
  rcases prefix_of_concat_prefix h₁ h₂ with heq | hlt | hlt
  · exact heq.1
  · exact absurd (mem_of_prefix_concat hlt) hk₂
  · exact absurd (mem_of_prefix_concat hlt) hk₁

theorem prices_map (P : Numerics K) (content : Contents K) (ks : List (Symbol × ℤ)) :
    (consume P (ks.map content)).prices = (firsts ks).map content := by
  induction ks using List.reverseRecOn with
  | nil => rfl
  | append_singleton ks x ih =>
    have hprices : (consume P ((ks ++ [x]).map content)).prices =
        insertNew PriceRow.key (content x) ((firsts ks).map content) := by
      rw [List.map_append, List.map_singleton, consume_concat, ← ih]
      unfold consumeOne
      simp only
      split_ifs <;> rfl
    have hkeys : ((firsts ks).map content).map PriceRow.key = firsts ks := by
      rw [List.map_map]
      exact (List.map_congr_left fun k _ => content.2 k).trans (List.map_id _)
    rw [hprices]
    by_cases hx : x ∈ ks
    · rw [firsts_concat_of_mem hx, insertNew_of_mem]
      rw [hkeys, content.2]
      exact mem_firsts.mpr hx
    · rw [firsts_concat_of_not_mem hx, insertNew_of_not_mem, List.map_append, List.map_singleton]
      rw [hkeys, content.2]
      exact fun h => hx (mem_firsts.mp h)

theorem firsts_firsts (ks : List (Symbol × ℤ)) : firsts (firsts ks) = firsts ks := by
  induction ks using List.reverseRecOn with
  | nil => rfl
  | append_singleton ks x ih =>
    by_cases hx : x ∈ ks
    · rw [firsts_concat_of_mem hx, ih]
    · rw [firsts_concat_of_not_mem hx, firsts_concat_of_not_mem, ih]
      exact fun h => hx (mem_firsts.mp h)

theorem Harmless.sameTables (h : Harmless ks) (P : Numerics K) (content : Contents K) :
    SameTables (consume P (ks.map content)) (consume P ((firsts ks).map content)) := by
  refine ⟨by rw [prices_map, prices_map, firsts_firsts], fun r => ?_⟩
  rw [mem_features_map, mem_features_map]
  constructor
  · rintro ⟨ks₂, k, hpre, hwarm, hnew, rfl⟩
    obtain ⟨ks₁, hpre₁, hk⟩ := exists_first (mem_of_prefix_concat hpre)
    obtain ⟨hsame, hcold⟩ := h ks₁ k hpre₁ hk
    have hwarm₁ : WarmKey (firsts ks₁) k := by
      by_contra hc
      exact hcold hc ks₂ hpre hwarm
    -- The first occurrence is warm, so it is the one that stores the row.
    obtain rfl : ks₂ = ks₁ := by
      rcases prefix_of_concat_prefix hpre hpre₁ with heq | hlt | hlt
      · exact heq.1
      · exact absurd (mem_of_prefix_concat hlt) hk
      · exact absurd ⟨ks₁, hlt, hwarm₁.of_firsts⟩ hnew
    exact ⟨firsts ks₂, k, prefix_firsts.mpr ⟨ks₂, hpre, hk, rfl⟩, hwarm₁,
      not_computedKey fun hc => hk (mem_firsts.mp hc),
      rowFor_congr content P hwarm hwarm₁ (hsame hwarm₁)⟩
  · rintro ⟨ms, k, hpre, hwarm, _, rfl⟩
    obtain ⟨ks₁, hpre₁, hk, rfl⟩ := prefix_firsts.mp hpre
    exact ⟨ks₁, k, hpre₁, hwarm.of_firsts, not_computedKey hk,
      (rowFor_congr content P hwarm.of_firsts hwarm ((h ks₁ k hpre₁ hk).1 hwarm)).symm⟩

end Harmless

/-! ## What the rows show of the timestamps -/

section Shows

variable {P : Numerics K} {ks ks' : List (Symbol × ℤ)} {k : Symbol × ℤ}

/-- Candles that differ in the close and the volume at each timestamp. -/
def contentsOf (close volume : ℤ → K) : Contents K :=
  ⟨fun k => ⟨k.2, k.1, 1, 1, 1, close k.2, volume k.2⟩, fun _ => rfl⟩

theorem lookup_eq_of_rowFor_eq {content : Contents K}
    (h : rowFor P (ks.map content) (content k) = rowFor P (ks'.map content) (content k))
    {col : String} (hcol : col ∈ featureCols) :
    ((latestFeatureRow P ((sortedTimes ks k).map fun t => content (k.1, t))).lookup col).join =
      ((latestFeatureRow P ((sortedTimes ks' k).map fun t => content (k.1, t))).lookup
        col).join := by
  rw [rowFor_map, rowFor_map] at h
  exact lookup_eq_of_featureRow_eq h hcol

omit [LinearOrder K] in
theorem sum_indicator (t : ℤ) (l : List ℤ) :
    (l.map fun x => if x = t then (1 : K) else 0).sum = (l.count t : K) := by
  induction l with
  | nil => simp
  | cons x l ih =>
    rw [List.map_cons, List.sum_cons, ih, List.count_cons]
    by_cases hx : x = t
    · simp [hx, add_comm]
    · simp [hx]

/-- The volume at one timestamp counts it among the newest 60. -/
theorem lookup_volume_indicator (h : WarmKey ks k) (t : ℤ) :
    (latestFeatureRow P ((sortedTimes ks k).map fun x =>
      contentsOf (fun _ => 1) (fun x => if x = t then 1 else 0) (k.1, x))).lookup
        "volume_mean_60" =
      some (some (.fin ((((sortedTimes ks k).rtake 60).count t : K) / 60))) := by
  have hlen := h.le
  rw [lookup_volume_mean_60 (by rw [List.length_map]; omega), rtake_map, List.map_map]
  have hvol : (PriceRow.volume ∘ fun x => contentsOf (K := K) (fun _ => 1)
      (fun x => if x = t then 1 else 0) (k.1, x)) = fun x => if x = t then (1 : K) else 0 := rfl
  unfold mean
  rw [hvol, sum_indicator, List.length_map, length_rtake, min_eq_left (by omega)]
  norm_num

variable [IsStrictOrderedRing K]

theorem rtake_60_eq (h : WarmKey ks k) (h' : WarmKey ks' k)
    (hrows : ∀ content : Contents K,
      rowFor P (ks.map content) (content k) = rowFor P (ks'.map content) (content k)) :
    (sortedTimes ks k).rtake 60 = (sortedTimes ks' k).rtake 60 := by
  have hcount : ∀ t,
      ((sortedTimes ks k).rtake 60).count t = ((sortedTimes ks' k).rtake 60).count t := by
    intro t
    have hlookup := lookup_eq_of_rowFor_eq
      (hrows (contentsOf (fun _ => 1) fun x => if x = t then 1 else 0))
      (show "volume_mean_60" ∈ featureCols by simp [featureCols])
    rw [lookup_volume_indicator h, lookup_volume_indicator h'] at hlookup
    have hfin := Flt.fin.inj (Option.some.inj hlookup)
    have h60 : (60 : K) ≠ 0 := by norm_num
    exact Nat.cast_injective ((div_left_inj' h60).mp hfin)
  have hsorted : ∀ ks, ((sortedTimes ks k).rtake 60).Pairwise (· ≤ ·) := fun ks =>
    (pairwise_sortedTimes ks k).sublist (List.drop_sublist _ _)
  exact (List.perm_iff_count.mpr hcount).eq_of_pairwise' (hsorted ks) (hsorted ks')

omit [LinearOrder K] [IsStrictOrderedRing K] in
/-- The newest 61 closes, if the close is 2 at `b` and 1 elsewhere. -/
theorem sameTail_closes {b c : ℤ} {newest : List ℤ} (hb : b ∉ newest) (hlen : newest.length = 60)
    (h : WarmKey ks k) (hc : (sortedTimes ks k).rtake 61 = c :: newest) :
    SameTail 61 (((sortedTimes ks k).map fun x =>
        contentsOf (K := K) (fun x => if x = b then 2 else 1) (fun _ => 1) (k.1, x)).map
          PriceRow.close)
      ((if c = b then 2 else 1) :: List.replicate 60 1) := by
  have hlong := h.le
  have hones : newest.map (fun x => if x = b then (2 : K) else 1) = List.replicate 60 1 := by
    refine List.eq_replicate_iff.mpr ⟨by rw [List.length_map, hlen], fun y hy => ?_⟩
    obtain ⟨x, hx, rfl⟩ := List.mem_map.mp hy
    exact if_neg fun he : x = b => hb (he ▸ hx)
  have htail : SameTail 61 (sortedTimes ks k) (c :: newest) := hc ▸ sameTail_rtake (by omega)
  have hmap := htail.map fun x => if x = b then (2 : K) else 1
  rw [List.map_cons, hones] at hmap
  rw [List.map_map]
  exact hmap

/-- Rows that are the same whatever the candles hold have the same newest 61 timestamps. -/
theorem rtake_61_eq (h1 : P.log (.fin 1) = .fin 0) (h2 : ∃ l ≠ 0, P.log (.fin 2⁻¹) = .fin l)
    (h : WarmKey ks k) (h' : WarmKey ks' k) (hnodup : (sortedTimes ks' k).Nodup)
    (hrows : ∀ content : Contents K,
      rowFor P (ks.map content) (content k) = rowFor P (ks'.map content) (content k)) :
    (sortedTimes ks k).rtake 61 = (sortedTimes ks' k).rtake 61 := by
  have h60 := rtake_60_eq h h' hrows
  have hlen := h.le
  have hlen' := h'.le
  obtain ⟨a, ha⟩ := rtake_succ (k := 60) (s := sortedTimes ks k) (by omega)
  obtain ⟨b, hb⟩ := rtake_succ (k := 60) (s := sortedTimes ks' k) (by omega)
  rw [h60] at ha
  by_cases hab : a = b
  · rw [ha, hb, hab]
  exfalso
  have hnot : b ∉ (sortedTimes ks' k).rtake 60 := by
    have hsub := hnodup.sublist (List.drop_sublist ((sortedTimes ks' k).length - 61) _)
    have hcons : (b :: (sortedTimes ks' k).rtake 60).Nodup := hb ▸ hsub
    exact (List.nodup_cons.mp hcons).1
  have hnewest : ((sortedTimes ks' k).rtake 60).length = 60 := by rw [length_rtake]; omega
  -- The close 2 at `b` shows in the return after it, which only one of the rows has.
  have hlookup := lookup_eq_of_rowFor_eq
    (hrows (contentsOf (fun x => if x = b then 2 else 1) fun _ => 1))
    (show "ret_mean_60" ∈ featureCols by simp [featureCols])
  have htail := sameTail_closes (K := K) hnot hnewest h ha
  have htail' := sameTail_closes (K := K) hnot hnewest h' hb
  rw [if_neg hab] at htail
  rw [if_pos rfl] at htail'
  obtain ⟨l, hl, hlog⟩ := h2
  have h1' : P.log (.fin 1⁻¹) = .fin 0 := by rw [inv_one, h1]
  rw [lookup_ret_mean_60 h1 one_ne_zero h1' htail, lookup_ret_mean_60 h1 two_ne_zero hlog htail']
    at hlookup
  have hfin := Flt.fin.inj (Option.some.inj hlookup)
  have h60' : (60 : K) ≠ 0 := by norm_num
  exact hl ((div_left_inj' h60').mp hfin).symm

end Shows

/-! ## Every stream -/

section Stream

variable [IsStrictOrderedRing K] {ks ks₁ : List (Symbol × ℤ)} {k : Symbol × ℤ}

theorem nodup_sortedTimes (hk : k ∉ ks) : (sortedTimes (firsts ks) k).Nodup := by
  have hnodup : (firsts ks ++ [k]).Nodup := by
    rw [← firsts_concat_of_not_mem hk]
    exact nodup_firsts
  have hwindow : (window (firsts ks) k).Nodup :=
    (hnodup.sublist List.filter_sublist).sublist (List.drop_sublist _ _)
  unfold sortedTimes
  rw [(List.mergeSort_perm _ _).nodup_iff]
  refine (List.nodup_map_iff_inj_on hwindow).mpr fun x hx y hy he => ?_
  have hsymbol : ∀ z ∈ window (firsts ks) k, z.1 = k.1 := fun z hz =>
    of_decide_eq_true (List.mem_filter.mp (mem_of_mem_rtake hz)).2
  exact Prod.ext ((hsymbol x hx).trans (hsymbol y hy).symm) he

/-- A key that has a row without the repeats was warm where it came first. -/
theorem warm_of_computed_firsts (hpre : ks₁ ++ [k] <+: ks) (hk : k ∉ ks₁)
    (h : ComputedKey (firsts ks) k) : WarmKey (firsts ks₁) k := by
  obtain ⟨ms, hms, hwarm⟩ := h
  obtain ⟨ks₂, hpre₂, hk₂, rfl⟩ := prefix_firsts.mp hms
  rwa [first_unique hpre hk hpre₂ hk₂]

omit [IsStrictOrderedRing K] in
theorem mem_keys_map (P : Numerics K) (content : Contents K) :
    k ∈ (consume P (ks.map content)).features.map FeatureRow.key ↔ ComputedKey ks k := by
  rw [mem_keys_features, computed_map]

/-- **Redelivery.** Dropping the repeats changes no table, whatever the candles hold, exactly if
the stream is harmless. -/
theorem redelivery_iff (P : Numerics K) (h1 : P.log (.fin 1) = .fin 0)
    (h2 : ∃ l ≠ 0, P.log (.fin 2⁻¹) = .fin l) (ks : List (Symbol × ℤ)) :
    (∀ content : Contents K,
      SameTables (consume P (ks.map content)) (consume P ((firsts ks).map content))) ↔
    Harmless ks := by
  refine ⟨fun h ks₁ k hpre hk => ⟨fun hwarm => ?_, fun hcold ks₂ hpre₂ hwarm => ?_⟩,
    fun h content => h.sameTables P content⟩
  · refine rtake_61_eq h1 h2 hwarm.of_firsts hwarm (nodup_sortedTimes hk) fun content => ?_
    have hrow := (mem_features_map content P).mpr
      ⟨ks₁, k, hpre, hwarm.of_firsts, not_computedKey hk, rfl⟩
    have hrow' := (mem_features_map content P).mpr
      ⟨firsts ks₁, k, prefix_firsts.mpr ⟨ks₁, hpre, hk, rfl⟩, hwarm,
        not_computedKey fun hc => hk (mem_firsts.mp hc), rfl⟩
    refine eq_of_key_eq (nodup_features P _) (((h content).2 _).mp hrow) hrow' ?_
    rw [rowFor_key, rowFor_key]
  · have hcomputed : ComputedKey ks k := ⟨ks₂, hpre₂, hwarm⟩
    set content : Contents K := contentsOf (fun _ => 1) fun _ => 1
    obtain ⟨r, hr, hkey⟩ := List.mem_map.mp ((mem_keys_map P content).mpr hcomputed)
    have hfirsts := (mem_keys_map P content).mp
      (List.mem_map.mpr ⟨r, ((h content).2 r).mp hr, hkey⟩)
    exact hcold (warm_of_computed_firsts hpre hk hfirsts)

end Stream

/-! ## Two streams -/

theorem length_window_le (ks : List (Symbol × ℤ)) (k : Symbol × ℤ) :
    (window ks k).length ≤ ks.length + 1 := by
  unfold window
  rw [length_rtake]
  refine (min_le_right _ _).trans ((List.length_filter_le _ _).trans ?_)
  rw [List.length_append, List.length_singleton]

theorem not_warmKey_of_short {ks ks₁ : List (Symbol × ℤ)} {k : Symbol × ℤ}
    (hpre : ks₁ ++ [k] <+: ks) (hlen : ks.length ≤ 61) : ¬ WarmKey ks₁ k := by
  intro h
  have hle := hpre.length_le
  have hwindow := length_window_le ks₁ k
  have hmin : minBuffer = 62 := rfl
  unfold WarmKey at h
  rw [List.length_append, List.length_singleton] at hle
  omega

open Classical in
/-- A candle that is repeated at once, on cold buffers. -/
theorem redelivery_iff_cold : Harmless [("BTC", 0), ("BTC", 0)] ∧ ∀ content : Contents ℝ,
    SameTables (consume realNumerics ([("BTC", 0), ("BTC", 0)].map content))
      (consume realNumerics ((firsts [("BTC", 0), ("BTC", 0)]).map content)) := by
  have hlog1 : realNumerics.log (.fin 1) = .fin 0 := by simp [realNumerics]
  have hlog2 : ∃ l ≠ 0, realNumerics.log (.fin 2⁻¹) = .fin l := by
    refine ⟨Real.log 2⁻¹, ?_, by simp [realNumerics]⟩
    rw [Real.log_inv, neg_ne_zero]
    exact (Real.log_pos one_lt_two).ne'
  have hharmless : Harmless [("BTC", 0), ("BTC", 0)] := by
    intro ks₁ k hpre hk
    refine ⟨fun hwarm => ?_, fun _ ks₂ hpre₂ => not_warmKey_of_short hpre₂ (by simp)⟩
    exact absurd hwarm.of_firsts (not_warmKey_of_short hpre (by simp))
  exact ⟨hharmless, (redelivery_iff realNumerics hlog1 hlog2 _).mpr hharmless⟩

/-- 61 candles of BTC, and the last of them again. -/
def repeatedLast : List (Symbol × ℤ) :=
  ((List.range 61).map fun i : ℕ => ("BTC", i * minute)) ++ [("BTC", 60 * minute)]

/-- The repeat is the 62nd entry of the ring buffer, and stores a row. -/
theorem repeatedLast_adds_row : ¬ ∃ (P : Numerics ℚ) (content : Contents ℚ),
    SameTables (consume P (repeatedLast.map content))
      (consume P ((firsts repeatedLast).map content)) := by
  rintro ⟨P, content, _, hfeatures⟩
  have hcomputed : ComputedKey repeatedLast ("BTC", 60 * minute) := by
    refine ⟨(List.range 61).map fun i : ℕ => ("BTC", i * minute), List.prefix_refl _, ?_⟩
    unfold WarmKey
    decide +kernel
  obtain ⟨r, hr, hkey⟩ := List.mem_map.mp ((mem_keys_map P content).mpr hcomputed)
  obtain ⟨ms, hpre, hwarm⟩ := (mem_keys_map P content).mp
    (List.mem_map.mpr ⟨r, (hfeatures r).mp hr, hkey⟩)
  exact not_warmKey_of_short hpre (by decide +kernel) hwarm

end PortfolioEngine.Features
