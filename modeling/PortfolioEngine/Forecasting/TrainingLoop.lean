import PortfolioEngine.Forecasting.Inference

/-!
# The training loop

`training_loop` of `forecasting/main.py` over any sequence of outcomes of `train_models`, with the
dict `models` that it shares with the inference loop. What is between two calls of `time.sleep` is
one cycle; only this loop writes to the dict.

`training_loop`: the models are never lost, and a cycle ends with a fast retry exactly if a symbol
is without a model. The four branches test this in four ways, which agree because the keys of the
dict are symbols.
-/

namespace PortfolioEngine.Forecasting

open Tables

variable {β K : Type*}

/-! ## The code -/

/-- `train_models`: the turn of a symbol gives its bundle, `none` where it is skipped or fails. -/
def trainModels (turn : Symbol → Option β) : Dict β :=
  symbols.foldl (fun models symbol =>
    match turn symbol with
    | some bundle => upsert Prod.fst (symbol, bundle) models
    | none => models) []

/-- `models.update(new_models)`. -/
def update (models newModels : Dict β) : Dict β :=
  newModels.foldl (fun d p => upsert Prod.fst p d) models

inductive RetryReason where
  | missingSymbols
  | noModelsAvailable
  | exception
  deriving DecidableEq

/-- `should_fast_retry` and `retry_reason`. -/
structure Retry where
  shouldFastRetry : Bool
  retryReason : Option RetryReason
  deriving DecidableEq

/-- `[s for s in SYMBOLS if s not in loaded_symbols]`. -/
def missingSymbols (loadedSymbols : Finset Symbol) : List Symbol :=
  symbols.filter fun s => s ∉ loadedSymbols

/-- A fast retry if some symbol is missing. -/
def retryMissing (loadedSymbols : Finset Symbol) : Retry :=
  if missingSymbols loadedSymbols ≠ [] then ⟨true, some .missingSymbols⟩ else ⟨false, none⟩

/-- The dict and the retry after a cycle; the outcome is `none` if `train_models` raises. -/
def trainingCycle (models : Dict β) (outcome : Option (Dict β)) : Dict β × Retry :=
  match outcome with
  | some newModels =>
    let hadModels := !models.isEmpty
    if !newModels.isEmpty then
      let models := update models newModels
      (models, retryMissing models.keySet)
    else if !hadModels then (models, ⟨true, some .noModelsAvailable⟩)
    else (models, retryMissing models.keySet)
  | none =>
    let loadedSymbols := models.keySet
    (models, ⟨loadedSymbols = ∅ || loadedSymbols.card < symbols.length, some .exception⟩)

/-- The dict after the cycles. -/
def modelsAfter (models : Dict β) (outcomes : List (Option (Dict β))) : Dict β :=
  outcomes.foldl (fun models outcome => (trainingCycle models outcome).1) models

/-- The settings of the loop, in hours and seconds. -/
structure Settings where
  retrainIntervalHours : ℤ
  trainingEmptyRetrySeconds : ℤ
  trainingPartialRetrySeconds : ℤ

/-- What the loop sleeps for. -/
inductive Sleep (K : Type*) where
  | fastRetry (seconds : K)
  | untilNextRun (seconds : K)

/-- `sleep_s`, `elapsed` seconds after the start of the cycle. -/
def sleepAfter [Ring K] [LinearOrder K] (c : Settings) (elapsed : K) (retry : Retry) : Sleep K :=
  if retry.shouldFastRetry then
    if retry.retryReason = some .missingSymbols then
      .fastRetry (max 1 (c.trainingPartialRetrySeconds : K))
    else .fastRetry (max 1 (c.trainingEmptyRetrySeconds : K))
  else .untilNextRun (max 1 ((c.retrainIntervalHours * 3600 : ℤ) - elapsed))

/-! ## The keys -/

theorem mem_keySet_upsert {p : Symbol × β} {d : Dict β} {s : Symbol} :
    s ∈ Dict.keySet (upsert Prod.fst p d) ↔ s = p.1 ∨ s ∈ d.keySet := by
  rw [Dict.mem_keySet, Dict.lookup_upsert, Dict.mem_keySet]
  split_ifs with hs <;> simp [hs]

theorem keySet_update (models newModels : Dict β) :
    (update models newModels).keySet = models.keySet ∪ newModels.keySet := by
  unfold update
  ext s
  induction newModels generalizing models with
  | nil => simp [Dict.keySet]
  | cons p newModels ih =>
    rw [List.foldl_cons, ih, Finset.mem_union, mem_keySet_upsert, Finset.mem_union]
    have hcons : s ∈ Dict.keySet (p :: newModels) ↔ s = p.1 ∨ s ∈ Dict.keySet newModels := by
      simp [Dict.keySet]
    rw [hcons]
    tauto

theorem keySet_trainModels (turn : Symbol → Option β) :
    (trainModels turn).keySet ⊆ symbols.toFinset := by
  have hfold : ∀ (l : List Symbol) (d : Dict β), (l.foldl (fun models symbol =>
      match turn symbol with
      | some bundle => upsert Prod.fst (symbol, bundle) models
      | none => models) d).keySet ⊆ d.keySet ∪ l.toFinset := by
    intro l
    induction l with
    | nil => intro d; simp
    | cons symbol l ih =>
      intro d s hs
      have hmem := ih _ hs
      rw [List.toFinset_cons, Finset.mem_union, Finset.mem_insert]
      rcases Finset.mem_union.mp hmem with hmem | hmem
      · cases hturn : turn symbol with
        | none =>
          simp only [hturn] at hmem
          exact Or.inl hmem
        | some bundle =>
          simp only [hturn] at hmem
          rcases mem_keySet_upsert.mp hmem with rfl | hmem
          · exact Or.inr (Or.inl rfl)
          · exact Or.inl hmem
      · exact Or.inr (Or.inr hmem)
  have hempty : Dict.keySet ([] : Dict β) = ∅ := rfl
  have h := hfold symbols []
  rwa [hempty, Finset.empty_union] at h

/-- A symbol is without a model. -/
def Missing (models : Dict β) : Prop := ∃ s ∈ symbols, s ∉ models.keySet

/-- The keys are symbols. -/
def KeysAreSymbols (models : Dict β) : Prop := models.keySet ⊆ symbols.toFinset

/-! ## One cycle -/

theorem retryMissing_iff {models : Dict β} :
    (retryMissing models.keySet).shouldFastRetry = true ↔ Missing models := by
  have hmissing : missingSymbols models.keySet ≠ [] ↔ Missing models := by
    unfold missingSymbols Missing
    rw [Ne, List.filter_eq_nil_iff]
    simp
  unfold retryMissing
  rw [← hmissing]
  split_ifs with h <;> simp [h]

theorem card_lt_iff {models : Dict β} (h : KeysAreSymbols models) :
    models.keySet.card < symbols.length ↔ Missing models := by
  have hcard : symbols.toFinset.card = symbols.length := by decide
  have hmissing : Missing models ↔ ¬ symbols.toFinset ⊆ models.keySet := by
    unfold Missing
    rw [Finset.not_subset]
    simp
  rw [hmissing, ← hcard]
  constructor
  · exact fun hlt hsub => (Finset.card_le_card hsub).not_gt hlt
  · exact fun hsub => Finset.card_lt_card ⟨h, hsub⟩

theorem keySet_of_isEmpty {models : Dict β} (h : models.isEmpty = true) : models.keySet = ∅ := by
  rw [List.isEmpty_iff.mp h]
  rfl

theorem missing_of_keySet_eq_empty {models : Dict β} (h : models.keySet = ∅) : Missing models :=
  ⟨"BTCUSDT", by decide, by simp [h]⟩

theorem keySet_trainingCycle (models : Dict β) (outcome : Option (Dict β)) :
    (trainingCycle models outcome).1.keySet =
      models.keySet ∪ (outcome.map Dict.keySet).getD ∅ := by
  unfold trainingCycle
  cases outcome with
  | none => simp
  | some newModels =>
    dsimp only
    split_ifs with hnew hhad
    · exact keySet_update models newModels
    all_goals
      have hempty : newModels.keySet = ∅ := keySet_of_isEmpty (by simpa using hnew)
      simp [hempty]

/-- The four branches decide alike. -/
theorem shouldFastRetry_iff {models : Dict β} (h : KeysAreSymbols models)
    (outcome : Option (Dict β)) :
    (trainingCycle models outcome).2.shouldFastRetry = true ↔
      Missing (trainingCycle models outcome).1 := by
  unfold trainingCycle
  cases outcome with
  | none =>
    rw [← card_lt_iff h]
    have hempty : models.keySet = ∅ → models.keySet.card < symbols.length := fun he =>
      (card_lt_iff h).mpr (missing_of_keySet_eq_empty he)
    simpa using hempty
  | some newModels =>
    dsimp only
    split_ifs with hnew hhad
    · exact retryMissing_iff
    · exact iff_of_true rfl (missing_of_keySet_eq_empty (keySet_of_isEmpty (by simpa using hhad)))
    · exact retryMissing_iff

theorem keysAreSymbols_trainingCycle {models : Dict β} (h : KeysAreSymbols models)
    {outcome : Option (Dict β)} (ho : ∀ newModels ∈ outcome, KeysAreSymbols newModels) :
    KeysAreSymbols (trainingCycle models outcome).1 := by
  unfold KeysAreSymbols
  rw [keySet_trainingCycle]
  refine Finset.union_subset h ?_
  cases outcome with
  | none => exact Finset.empty_subset _
  | some newModels => exact ho newModels rfl

/-! ## All cycles -/

theorem modelsAfter_concat (models : Dict β) (outcomes : List (Option (Dict β)))
    (outcome : Option (Dict β)) : modelsAfter models (outcomes ++ [outcome]) =
      (trainingCycle (modelsAfter models outcomes) outcome).1 := by
  unfold modelsAfter
  rw [List.foldl_concat]

theorem keysAreSymbols_modelsAfter {models : Dict β} (h : KeysAreSymbols models)
    {outcomes : List (Option (Dict β))}
    (ho : ∀ outcome ∈ outcomes, ∀ newModels ∈ outcome, KeysAreSymbols newModels) :
    KeysAreSymbols (modelsAfter models outcomes) := by
  induction outcomes using List.reverseRecOn with
  | nil => exact h
  | append_singleton outcomes outcome ih =>
    rw [modelsAfter_concat]
    refine keysAreSymbols_trainingCycle (ih fun o hmem => ?_) (ho outcome (by simp))
    exact ho o (List.mem_append_left _ hmem)

section Sleep

variable [Ring K] [LinearOrder K]

/-- One of the two intervals of a fast retry. -/
def Sleep.IsFastRetry (c : Settings) (sleep : Sleep K) : Prop :=
  sleep = .fastRetry (max 1 (c.trainingPartialRetrySeconds : K)) ∨
    sleep = .fastRetry (max 1 (c.trainingEmptyRetrySeconds : K))

theorem isFastRetry_sleepAfter (c : Settings) (elapsed : K) (retry : Retry) :
    (sleepAfter c elapsed retry).IsFastRetry c ↔ retry.shouldFastRetry = true := by
  unfold sleepAfter Sleep.IsFastRetry
  split_ifs with hretry hreason <;> simp [hretry]

/-- **The training loop.** From any models of symbols and over any outcomes, the keys stay symbols,
no cycle loses one, and a cycle ends with a fast retry exactly if a symbol is without a model
then. -/
theorem training_loop (c : Settings) {models : Dict β} (h : KeysAreSymbols models)
    {outcomes : List (Option (Dict β))}
    (ho : ∀ outcome ∈ outcomes, ∀ newModels ∈ outcome, KeysAreSymbols newModels) :
    KeysAreSymbols (modelsAfter models outcomes) ∧
    ∀ before outcome, before ++ [outcome] <+: outcomes →
      (modelsAfter models before).keySet ⊆ (modelsAfter models (before ++ [outcome])).keySet ∧
      ∀ elapsed : K,
        (sleepAfter c elapsed (trainingCycle (modelsAfter models before) outcome).2).IsFastRetry c ↔
          ∃ s ∈ symbols, s ∉ (modelsAfter models (before ++ [outcome])).keySet := by
  refine ⟨keysAreSymbols_modelsAfter h ho, fun before outcome hpre => ?_⟩
  rw [modelsAfter_concat]
  refine ⟨?_, fun elapsed => ?_⟩
  · rw [keySet_trainingCycle]
    exact Finset.subset_union_left
  · rw [isFastRetry_sleepAfter]
    refine shouldFastRetry_iff (keysAreSymbols_modelsAfter h fun o hmem => ?_) outcome
    exact ho o (hpre.subset (List.mem_append_left _ hmem))

/-- The settings of the service. -/
def settings : Settings := ⟨24, 60, 300⟩

/-- A cycle that trains one symbol, and a cycle that raises. -/
def partialCycles : List (Option (Dict ℕ)) :=
  [some (trainModels fun s => if s = "BTCUSDT" then some 1 else none), none]

/-- From no models. -/
theorem training_loop_partial : KeysAreSymbols (modelsAfter [] partialCycles) ∧
    ∀ before outcome, before ++ [outcome] <+: partialCycles →
      (modelsAfter [] before).keySet ⊆ (modelsAfter [] (before ++ [outcome])).keySet ∧
      ∀ elapsed : ℤ,
        (sleepAfter settings elapsed
          (trainingCycle (modelsAfter [] before) outcome).2).IsFastRetry settings ↔
          ∃ s ∈ symbols, s ∉ (modelsAfter [] (before ++ [outcome])).keySet := by
  refine training_loop settings (Finset.empty_subset _) ?_
  intro outcome hmem newModels hnew
  simp only [partialCycles, List.mem_cons, List.not_mem_nil, or_false] at hmem
  rcases hmem with rfl | rfl
  · obtain rfl := Option.mem_some.mp hnew
    exact keySet_trainModels _
  · cases hnew

end Sleep

end PortfolioEngine.Forecasting
