import PortfolioEngine.Pipeline.Gates
import PortfolioEngine.Pipeline.Isolation

/-!
# The threads of the forecasting service

`main` of `forecasting/main.py`, after the wait for the backfill: a first training, and then the
training loop and the inference loop, which share the dict `models`. A turn of the training reads
the tables as they are at that moment; the inference loop goes by the copy of the dict that it
takes when a cycle starts.

1. `Reachable.world`: the threads refine the system of the services, so what holds of all its
   states holds here.
2. `forecasts_trained`: each forecast comes from a model trained on 100 rows.
3. `training_outcome`: on valid candles the training of a symbol fails only if `arch` cannot
   forecast.
-/

namespace PortfolioEngine.Pipeline.Threads

open Tables Features Forecasting Garch

variable {K : Type*} [Field K] [LinearOrder K]

/-! ## The process -/

/-- Where `train_models` is: the symbols left, and the dict that it fills. -/
inductive Trainer (K : Type*) where
  | sleeping
  | training (rest : List Symbol) (newModels : Dict (ModelBundle K))

/-- The process. Before the loops are `started`, the main thread trains. -/
structure Process (K : Type*) where
  models : Dict (ModelBundle K)
  trainer : Trainer K
  started : Bool
  snapshot : Dict (ModelBundle K)

/-- The services, and the process of the forecasting service if it is up. -/
structure State (K : Type*) where
  world : World K
  process : Option (Process K)

inductive Event (K : Type*) [Field K] [LinearOrder K] where
  | tick (t : ℤ)
  | market (e : Restart.Event K)
  /-- `wait_for_features` has returned. -/
  | boot
  /-- The turn of the next symbol in `train_models`. -/
  | train (arch : Arch K) (xgboost : Xgboost K)
  /-- `train_models` returns. -/
  | trained
  | retrain
  | trainingFailed
  /-- The inference loop copies the dict, which is not empty, and starts a cycle. -/
  | cycle
  | call
  | raise
  | crash

/-- The dict after the turn of a symbol. -/
def store (symbol : Symbol) (turn : Turn K) (newModels : Dict (ModelBundle K)) :
    Dict (ModelBundle K) :=
  match turn.bundle? with
  | some bundle => upsert Prod.fst (symbol, bundle) newModels
  | none => newModels

/-- What a call of the inference loop gets from the snapshot: the models of the symbol whose turn
it is. -/
def answering (sqrt : K → K) (snapshot : Dict (ModelBundle K)) : Inference K → Option (Bundle K)
  | .turn (symbol :: _) => (snapshot.lookup symbol).map fun bundle => bundle.answers sqrt
  | _ => none

/-- The next turn of `train_models`. -/
def Process.train (P : Numerics K) (sqrt : K → K) (w : World K) (arch : Arch K)
    (xgboost : Xgboost K) (p : Process K) : Option (Process K) :=
  match p.trainer with
  | .training (symbol :: rest) newModels =>
    let turn := trainSymbol P sqrt arch xgboost w.market.features (floats w.market.prices) symbol
      w.clock
    some { p with trainer := .training rest (store symbol turn newModels) }
  | _ => none

/-- One event. -/
def step (P : Numerics K) (sqrt : K → K) (s : State K) : Event K → Option (State K)
  | .tick t => (Pipeline.step P s.world (.tick t)).map fun world => { s with world }
  | .market e => (Pipeline.step P s.world (.market e)).map fun world => { s with world }
  | .boot =>
    match s.process with
    | none =>
      if waitForFeatures symbols 100 s.world.market.features then
        some { s with process := some ⟨[], .training symbols [], false, []⟩ }
      else none
    | some _ => none
  | .train arch xgboost =>
    s.process.bind fun p =>
      (p.train P sqrt s.world arch xgboost).map fun p => { s with process := some p }
  | .trained =>
    s.process.bind fun p =>
      match p.trainer with
      | .training [] newModels =>
        let p' := { p with
          models := update p.models newModels
          trainer := .sleeping
          started := true }
        if p.started then some { s with process := some p' }
        else (Pipeline.step P s.world .launch).map fun world => ⟨world, some p'⟩
      | _ => none
  | .retrain =>
    s.process.bind fun p =>
      match p.trainer with
      | .sleeping => some { s with process := some { p with trainer := .training symbols [] } }
      | .training _ _ => none
  | .trainingFailed =>
    s.process.bind fun p =>
      if p.started then some { s with process := some { p with trainer := .sleeping } } else none
  | .cycle =>
    s.process.bind fun p =>
      if p.models.isEmpty then none
      else (Pipeline.step P s.world .cycle).map fun world =>
        ⟨world, some { p with snapshot := p.models }⟩
  | .call =>
    s.process.bind fun p =>
      s.world.inference.bind fun i =>
        (Pipeline.step P s.world (.call (answering sqrt p.snapshot i))).map fun world =>
          { s with world }
  | .raise => (Pipeline.step P s.world .raise).map fun world => { s with world }
  | .crash => (Pipeline.step P s.world .crash).map fun world => ⟨world, none⟩

/-- The states that the events lead to, from an empty database at some instant. -/
def Reachable (P : Numerics K) (sqrt : K → K) (s : State K) : Prop :=
  ∃ t, Runs.Reachable (step P sqrt) ⟨World.start t, none⟩ s

/-! ## What one event does -/

/-- What one event does: the process, and an event of the services if it has one. -/
inductive Steps (P : Numerics K) (sqrt : K → K) (s : State K) : Event K → State K → Prop
  | world (e : Event K) (e' : Pipeline.Event K) (world : World K)
      (quiet : ∀ bundle, e' ≠ .call bundle) (moves : Pipeline.step P s.world e' = some world) :
      Steps P sqrt s e { s with world := world }
  | boot : Steps P sqrt s .boot { s with process := some ⟨[], .training symbols [], false, []⟩ }
  | train (arch : Arch K) (xgboost : Xgboost K) (p : Process K) (symbol : Symbol)
      (rest : List Symbol) (newModels : Dict (ModelBundle K)) (process : s.process = some p)
      (trainer : p.trainer = .training (symbol :: rest) newModels) :
      Steps P sqrt s (.train arch xgboost) { s with process := some { p with
        trainer := .training rest (store symbol (trainSymbol P sqrt arch xgboost
          s.world.market.features (floats s.world.market.prices) symbol s.world.clock)
          newModels) } }
  | trained (p : Process K) (newModels : Dict (ModelBundle K)) (world : World K)
      (process : s.process = some p) (trainer : p.trainer = .training [] newModels)
      (moves : world = s.world ∨ Pipeline.step P s.world .launch = some world) :
      Steps P sqrt s .trained ⟨world, some { p with
        models := update p.models newModels
        trainer := .sleeping
        started := true }⟩
  | retrain (p : Process K) (process : s.process = some p) :
      Steps P sqrt s .retrain { s with process := some { p with trainer := .training symbols [] } }
  | trainingFailed (p : Process K) (process : s.process = some p) :
      Steps P sqrt s .trainingFailed { s with process := some { p with trainer := .sleeping } }
  | cycle (p : Process K) (world : World K) (process : s.process = some p)
      (moves : Pipeline.step P s.world .cycle = some world) :
      Steps P sqrt s .cycle ⟨world, some { p with snapshot := p.models }⟩
  | call (p : Process K) (i : Inference K) (world : World K) (process : s.process = some p)
      (place : s.world.inference = some i)
      (moves : Pipeline.step P s.world (.call (answering sqrt p.snapshot i)) = some world) :
      Steps P sqrt s .call { s with world := world }
  | crash (world : World K) (moves : Pipeline.step P s.world .crash = some world) :
      Steps P sqrt s .crash ⟨world, none⟩

variable {P : Numerics K} {sqrt : K → K} {s s' : State K}

theorem steps_of_step {e : Event K} (h : step P sqrt s e = some s') : Steps P sqrt s e s' := by
  cases e with
  | tick t =>
    obtain ⟨world, hw, rfl⟩ := Option.map_eq_some_iff.mp h
    exact .world _ (.tick t) world nofun hw
  | market e =>
    obtain ⟨world, hw, rfl⟩ := Option.map_eq_some_iff.mp h
    exact .world _ (.market e) world nofun hw
  | boot =>
    simp only [step] at h
    split at h
    · split_ifs at h
      cases h
      exact .boot
    · cases h
  | train arch xgboost =>
    obtain ⟨p, hp, h⟩ := Option.bind_eq_some_iff.mp h
    obtain ⟨p', htrain, rfl⟩ := Option.map_eq_some_iff.mp h
    unfold Process.train at htrain
    split at htrain
    next symbol rest newModels htrainer =>
      cases htrain
      exact .train arch xgboost p symbol rest newModels hp htrainer
    · cases htrain
  | trained =>
    obtain ⟨p, hp, h⟩ := Option.bind_eq_some_iff.mp h
    split at h
    next newModels htrainer =>
      dsimp only at h
      split_ifs at h
      · cases h
        exact .trained p newModels s.world hp htrainer (Or.inl rfl)
      · obtain ⟨world, hw, rfl⟩ := Option.map_eq_some_iff.mp h
        exact .trained p newModels world hp htrainer (Or.inr hw)
    · cases h
  | retrain =>
    obtain ⟨p, hp, h⟩ := Option.bind_eq_some_iff.mp h
    split at h
    · cases h
      exact .retrain p hp
    · cases h
  | trainingFailed =>
    obtain ⟨p, hp, h⟩ := Option.bind_eq_some_iff.mp h
    split_ifs at h
    cases h
    exact .trainingFailed p hp
  | cycle =>
    obtain ⟨p, hp, h⟩ := Option.bind_eq_some_iff.mp h
    split_ifs at h
    obtain ⟨world, hw, rfl⟩ := Option.map_eq_some_iff.mp h
    exact .cycle p world hp hw
  | call =>
    obtain ⟨p, hp, h⟩ := Option.bind_eq_some_iff.mp h
    obtain ⟨i, hi, h⟩ := Option.bind_eq_some_iff.mp h
    obtain ⟨world, hw, rfl⟩ := Option.map_eq_some_iff.mp h
    exact .call p i world hp hi hw
  | raise =>
    obtain ⟨world, hw, rfl⟩ := Option.map_eq_some_iff.mp h
    exact .world _ .raise world nofun hw
  | crash =>
    have hcrash : (Pipeline.step P s.world .crash).map (fun world => (⟨world, none⟩ : State K)) =
        some s' := h
    obtain ⟨world, hw, rfl⟩ := Option.map_eq_some_iff.mp hcrash
    exact .crash world hw

/-! ## The refinement -/

theorem run_of_step {e : Event K} (h : step P sqrt s e = some s') :
    Runs.Reachable (Pipeline.step P) s.world s'.world := by
  have hone : ∀ {e' : Pipeline.Event K} {world : World K},
      Pipeline.step P s.world e' = some world →
        Runs.Reachable (Pipeline.step P) s.world world := fun {e' _} he' =>
    ⟨[e'], Option.bind_eq_some_iff.mpr ⟨_, he', rfl⟩⟩
  cases steps_of_step h with
  | world _ e' world _ hw => exact hone hw
  | boot => exact ⟨[], rfl⟩
  | train => exact ⟨[], rfl⟩
  | trained p newModels world _ _ hw =>
    rcases hw with rfl | hw
    · exact ⟨[], rfl⟩
    · exact hone hw
  | retrain => exact ⟨[], rfl⟩
  | trainingFailed => exact ⟨[], rfl⟩
  | cycle p world _ hw => exact hone hw
  | call p i world _ _ hw => exact hone hw
  | crash world hw => exact hone hw

/-- The threads refine the system of the services. -/
theorem Reachable.world (h : Reachable P sqrt s) : Pipeline.Reachable P s.world := by
  obtain ⟨t, hreach⟩ := h
  exact ⟨t, hreach.simulates (f := State.world) fun _ _ _ => run_of_step⟩

/-! ## Trained models -/

section Trained

/-- A bundle of `symbol` was trained on rows that are in `features`. -/
structure Trained (features : List (FeatureRow K)) (symbol : Symbol) (bundle : ModelBundle K) :
    Prop where
  enough : 100 ≤ bundle.samples
  rows : bundle.samples ≤ (completeFeatures features symbol).length

/-- A stored volatility that a trained bundle of `symbol` can have answered. -/
def Answered (features : List (FeatureRow K)) (symbol : Symbol) (garchVol : Option (Flt K)) :
    Prop :=
  (∀ vol, garchVol = some vol → ¬ vol < .fin 0) ∧ 100 ≤ (completeFeatures features symbol).length

variable {features features' : List (FeatureRow K)} {symbol : Symbol} {bundle : ModelBundle K}

omit [Field K] [LinearOrder K] in
theorem length_completeFeatures_le (h : features <+: features') :
    (completeFeatures features symbol).length ≤ (completeFeatures features' symbol).length :=
  (h.filter _).length_le

omit [Field K] [LinearOrder K] in
theorem Trained.mono (h : Trained features symbol bundle) (hpre : features <+: features') :
    Trained features' symbol bundle :=
  ⟨h.enough, h.rows.trans (length_completeFeatures_le hpre)⟩

theorem Answered.mono {garchVol : Option (Flt K)} (h : Answered features symbol garchVol)
    (hpre : features <+: features') : Answered features' symbol garchVol :=
  ⟨h.1, h.2.trans (length_completeFeatures_le hpre)⟩

theorem Trained.answered (hsqrt : ∀ x, 0 ≤ sqrt x) (h : Trained features symbol bundle) :
    Answered features symbol (bundle.answers sqrt).garch := by
  refine ⟨fun vol hvol => ?_, h.enough.trans h.rows⟩
  have hpredict : (bundle.garch.predict sqrt 1).toOption = some vol := hvol
  cases hresult : bundle.garch.predict sqrt 1 with
  | error e =>
    rw [hresult] at hpredict
    cases hpredict
  | ok v =>
    rw [hresult] at hpredict
    cases hpredict
    exact not_predict_lt hsqrt hresult

/-- Every bundle of the dict is trained. -/
def AllTrained (features : List (FeatureRow K)) (models : Dict (ModelBundle K)) : Prop :=
  ∀ m ∈ models, Trained features m.1 m.2

omit [Field K] [LinearOrder K] in
theorem AllTrained.mono {models : Dict (ModelBundle K)} (h : AllTrained features models)
    (hpre : features <+: features') : AllTrained features' models :=
  fun m hm => (h m hm).mono hpre

omit [Field K] [LinearOrder K] in
theorem AllTrained.upsert {models : Dict (ModelBundle K)} (h : AllTrained features models)
    {m : Symbol × ModelBundle K} (hm : Trained features m.1 m.2) :
    AllTrained features (Tables.upsert Prod.fst m models) := by
  intro x hx
  rcases eq_or_mem_of_mem_upsert hx with rfl | hx
  · exact hm
  · exact h x hx

omit [Field K] [LinearOrder K] in
theorem AllTrained.update {models newModels : Dict (ModelBundle K)}
    (h : AllTrained features models) (hnew : AllTrained features newModels) :
    AllTrained features (update models newModels) := by
  unfold Forecasting.update
  induction newModels generalizing models with
  | nil => exact h
  | cons m newModels ih =>
    exact ih (h.upsert (hnew m List.mem_cons_self)) fun x hx => hnew x (List.mem_cons_of_mem m hx)

theorem AllTrained.store {prices : List (PriceRow (Flt K))}
    (hfeatures : (features.map FeatureRow.key).Nodup) (hprices : (prices.map PriceRow.key).Nodup)
    (arch : Arch K) (xgboost : Xgboost K) (now : ℤ) {newModels : Dict (ModelBundle K)}
    (h : AllTrained features newModels) :
    AllTrained features (store symbol (trainSymbol P sqrt arch xgboost features prices symbol
      now) newModels) := by
  cases hturn : trainSymbol P sqrt arch xgboost features prices symbol now with
  | trained bundle =>
    obtain ⟨henough, hsamples⟩ := samples_of_trained hturn
    exact h.upsert ⟨henough, hsamples.trans_le (length_usable_le hfeatures hprices)⟩
  | skippedNoData => exact h
  | skippedNotEnough rows => exact h
  | failed error => exact h

end Trained

/-! ## Their forecasts -/

section Forecasts

/-- The rows that wait to be inserted hold answers of trained models. -/
def Predicts (features : List (FeatureRow K)) : Inference K → Prop
  | .inserting _ rows _ => ∀ r ∈ rows, Answered features r.symbol r.garchVol
  | _ => True

variable {w : World K} {features : List (FeatureRow K)}

/-- A call of the inference loop stores what a trained model has answered. -/
theorem answered_of_calls (hsqrt : ∀ x, 0 ≤ sqrt x) {snapshot : Dict (ModelBundle K)}
    (hsnapshot : AllTrained features snapshot) {i j : Inference K}
    {forecasts : List (ForecastRow K)} (hplace : Predicts features i)
    (h : ∀ r ∈ w.forecasts, Answered features r.symbol r.garchVol)
    (hcalls : Calls P w (answering sqrt snapshot i) i j forecasts) :
    Predicts features j ∧ ∀ r ∈ forecasts, Answered features r.symbol r.garchVol := by
  generalize hbundle : answering sqrt snapshot i = bundle at hcalls
  cases hcalls with
  | finish => exact ⟨trivial, h⟩
  | skip => exact ⟨trivial, h⟩
  | nothing => exact ⟨trivial, h⟩
  | predict symbol rest b hb =>
    refine ⟨fun r hr => ?_, h⟩
    obtain ⟨m, hm, rfl⟩ := Option.map_eq_some_iff.mp (hbundle.trans hb)
    obtain ⟨before, after, hsplit, _⟩ := List.lookup_eq_some_iff.mp hm
    have htrained := hsnapshot (symbol, m) (hsplit ▸ List.mem_append_right before
      List.mem_cons_self)
    rw [symbol_of_mem_preds hr, (mem_preds hr).1]
    exact htrained.answered hsqrt
  | inserted => exact ⟨trivial, h⟩
  | insert symbol row rows rest =>
    refine ⟨fun r hr => hplace r (List.mem_cons_of_mem row hr), fun r hr => ?_⟩
    rcases mem_insertNew.mp hr with hr | ⟨_, rfl⟩
    · exact h r hr
    · exact hplace _ List.mem_cons_self
  | complete => exact ⟨trivial, h⟩
  | missing => exact ⟨trivial, h⟩
  | price => exact ⟨trivial, h⟩
  | updated => exact ⟨trivial, h⟩
  | update symbol update updates rest =>
    refine ⟨trivial, fun r hr => ?_⟩
    obtain ⟨x, hx, rfl⟩ := List.mem_map.mp hr
    split_ifs
    · exact h x hx
    · exact h x hx

end Forecasts

theorem Predicts.mono {features features' : List (FeatureRow K)} {i : Inference K}
    (h : Predicts features i) (hpre : features <+: features') : Predicts features' i := by
  cases i with
  | inserting symbol rows rest => exact fun r hr => (h r hr).mono hpre
  | sleeping => trivial
  | turn l => trivial
  | missing symbol rest => trivial
  | pricing symbol first later rest => trivial
  | updating symbol updates rest => trivial

/-- Other events leave the forecasts as they are, and no row waits after them that did not wait. -/
theorem quiet_of_step {w w' : World K} {e : Pipeline.Event K} (hquiet : ∀ bundle, e ≠ .call bundle)
    (h : Pipeline.step P w e = some w') : w'.forecasts = w.forecasts ∧
      ∀ i ∈ w'.inference, i ∈ w.inference ∨ ∀ features, Predicts features i := by
  cases Pipeline.steps_of_step h with
  | tick => exact ⟨rfl, fun i hi => Or.inl hi⟩
  | market => exact ⟨rfl, fun i hi => Or.inl hi⟩
  | launch => exact ⟨rfl, by rintro _ ⟨⟩; exact Or.inr fun _ => trivial⟩
  | cycle => exact ⟨rfl, by rintro _ ⟨⟩; exact Or.inr fun _ => trivial⟩
  | call bundle => exact absurd rfl (hquiet bundle)
  | raise => exact ⟨rfl, by rintro _ ⟨⟩; exact Or.inr fun _ => trivial⟩
  | crash => exact ⟨rfl, by rintro _ ⟨⟩⟩

/-! ## Every run -/

/-- The dicts of the process hold trained models. -/
structure Process.Sound (features : List (FeatureRow K)) (p : Process K) : Prop where
  models : AllTrained features p.models
  newModels : ∀ rest newModels, p.trainer = .training rest newModels →
    AllTrained features newModels
  snapshot : AllTrained features p.snapshot

omit [Field K] [LinearOrder K] in
theorem Process.Sound.mono {features features' : List (FeatureRow K)} {p : Process K}
    (h : p.Sound features) (hpre : features <+: features') : p.Sound features' :=
  ⟨h.models.mono hpre, fun rest newModels hp => (h.newModels rest newModels hp).mono hpre,
    h.snapshot.mono hpre⟩

/-- The invariant of the services, and the answers of trained models. -/
structure Inv (P : Numerics K) (s : State K) : Prop where
  world : WaitInv P s.world
  process : ∀ p ∈ s.process, p.Sound s.world.market.features
  place : ∀ i ∈ s.world.inference, Predicts s.world.market.features i
  forecasts : ∀ r ∈ s.world.forecasts, Answered s.world.market.features r.symbol r.garchVol

theorem Inv.start (P : Numerics K) (t : ℤ) : Inv P ⟨World.start t, none⟩ where
  world := .start P t
  process := by rintro p ⟨⟩
  place := by rintro i ⟨⟩
  forecasts := by rintro r ⟨⟩

theorem Inv.quiet {e : Pipeline.Event K} {world : World K} (h : Inv P s)
    (hw : Pipeline.step P s.world e = some world) (hquiet : ∀ bundle, e ≠ .call bundle)
    {process : Option (Process K)} (hp : ∀ p ∈ process, p.Sound s.world.market.features) :
    Inv P ⟨world, process⟩ := by
  obtain ⟨hinv, hkept⟩ := h.world.step hw
  have hpre := hkept.features
  obtain ⟨hforecasts, hplace⟩ := quiet_of_step hquiet hw
  refine ⟨hinv, fun p hmem => (hp p hmem).mono hpre, fun i hi => ?_, fun r hr => ?_⟩
  · rcases hplace i hi with hi | hi
    · exact (h.place i hi).mono hpre
    · exact hi _
  · exact (h.forecasts r (hforecasts ▸ hr)).mono hpre

theorem Inv.process_only {process : Option (Process K)} (h : Inv P s)
    (hp : ∀ p ∈ process, p.Sound s.world.market.features) :
    Inv P { s with process := process } :=
  ⟨h.world, hp, h.place, h.forecasts⟩

theorem Inv.step (hsqrt : ∀ x, 0 ≤ sqrt x) {e : Event K} (h : Inv P s)
    (hstep : step P sqrt s e = some s') : Inv P s' := by
  have hintegrity := h.world.toInv.references
  have hkeys : ((floats s.world.market.prices).map PriceRow.key).Nodup := by
    unfold floats
    rw [List.map_map]
    exact hintegrity.uniquePrices
  cases steps_of_step hstep with
  | world _ e' world hquiet hw => exact h.quiet hw hquiet h.process
  | boot =>
    refine h.process_only ?_
    rintro _ ⟨⟩
    exact ⟨nofun, by rintro rest newModels ⟨⟩; exact nofun, nofun⟩
  | train arch xgboost p symbol rest newModels hp htrainer =>
    have hsound := h.process p hp
    refine h.process_only ?_
    rintro _ ⟨⟩
    refine ⟨hsound.models, ?_, hsound.snapshot⟩
    rintro _ _ ⟨⟩
    exact (hsound.newModels _ _ htrainer).store hintegrity.uniqueFeatures hkeys arch xgboost _
  | trained p newModels world hp htrainer hw =>
    have hsound := h.process p hp
    have hp' : ({ p with
        models := update p.models newModels
        trainer := .sleeping
        started := true } : Process K).Sound s.world.market.features :=
      ⟨hsound.models.update (hsound.newModels _ _ htrainer), by rintro _ _ ⟨⟩, hsound.snapshot⟩
    rcases hw with rfl | hw
    · exact h.process_only (by rintro _ ⟨⟩; exact hp')
    · exact h.quiet hw nofun (by rintro _ ⟨⟩; exact hp')
  | retrain p hp =>
    have hsound := h.process p hp
    refine h.process_only ?_
    rintro _ ⟨⟩
    exact ⟨hsound.models, by rintro _ _ ⟨⟩; exact nofun, hsound.snapshot⟩
  | trainingFailed p hp =>
    have hsound := h.process p hp
    refine h.process_only ?_
    rintro _ ⟨⟩
    exact ⟨hsound.models, by rintro _ _ ⟨⟩, hsound.snapshot⟩
  | cycle p world hp hw =>
    have hsound := h.process p hp
    refine h.quiet hw nofun ?_
    rintro _ ⟨⟩
    exact ⟨hsound.models, hsound.newModels, hsound.models⟩
  | call p i world hp hi hw =>
    -- the bundle of the turn is that of the snapshot, which holds fitted models only
    have hwait := (h.world.step hw).1
    cases Pipeline.steps_of_step hw with
    | call bundle i' j forecasts hi' hcalls =>
      obtain rfl := Option.some.inj (hi.symm.trans hi')
      obtain ⟨hj, hforecasts⟩ := answered_of_calls hsqrt (h.process p hp).snapshot (h.place i hi)
        h.forecasts hcalls
      exact ⟨hwait, h.process, by rintro _ ⟨⟩; exact hj, hforecasts⟩
  | crash world hw => exact h.quiet hw nofun nofun

theorem Reachable.inv (hsqrt : ∀ x, 0 ≤ sqrt x) (h : Reachable P sqrt s) : Inv P s := by
  obtain ⟨t, hreach⟩ := h
  exact hreach.invariant (Inv.start P t) fun _ _ _ hs hstep => hs.step hsqrt hstep

/-- **Trained forecasts.** In every state that training, inference, feature engineering and crashes
lead to, the GARCH volatility of a stored forecast is not negative, unless it is missing, and its
symbol has at least 100 complete rows in `features`. -/
theorem forecasts_trained (hsqrt : ∀ x, 0 ≤ sqrt x) (h : Reachable P sqrt s) :
    ∀ r ∈ s.world.forecasts, (∀ vol, r.garchVol = some vol → ¬ vol < .fin 0) ∧
      100 ≤ (completeFeatures s.world.market.features r.symbol).length :=
  (h.inv hsqrt).forecasts

/-! ## The training of a symbol -/

theorem exists_log_return [IsStrictOrderedRing K] (hP : Regular P) {w : World K}
    (h : Pipeline.Reachable P w) (hvalid : ∀ c ∈ w.market.stream, Valid c) {f : FeatureRow K}
    (hf : f ∈ w.market.features) : ∃ y, column "log_return" f = some (.fin y) := by
  obtain ⟨k, j, hcursors⟩ := h.inv.cursors
  rw [hcursors.atCursors.features] at hf
  obtain ⟨es, candle, hpre, ⟨hwarm, _⟩, rfl⟩ := (mem_features P _ f).mp hf
  refine log_return_rowFor hP (fun c hc => hvalid c ?_) hwarm
  exact List.mem_of_mem_take (hpre.subset hc)

/-- **The end of a training.** As long as the candles of the stream are valid, in every reachable
state the turn of a symbol skips it exactly if it has not 100 rows with all features and a target,
and fails only if the forecast of a model that `arch` has fitted raises. -/
theorem training_outcome [IsStrictOrderedRing K] (hP : Regular P) {w : World K}
    (h : Pipeline.Reachable P w) (hvalid : ∀ c ∈ w.market.stream, Valid c) (sqrt : K → K)
    (arch : Arch K) (xgboost : Xgboost K) (symbol : Symbol) :
    (∀ error, trainSymbol P sqrt arch xgboost w.market.features (floats w.market.prices) symbol
        w.clock = .failed error →
      ∃ data dist fitted, arch.fit data dist = .ok fitted ∧ fitted.forecast 1 = .error error) ∧
    ((∃ bundle, trainSymbol P sqrt arch xgboost w.market.features (floats w.market.prices) symbol
          w.clock = .trained bundle) ∨
        (∃ error, trainSymbol P sqrt arch xgboost w.market.features (floats w.market.prices) symbol
          w.clock = .failed error) ↔
      100 ≤ (usable P w.market.features (floats w.market.prices) symbol w.clock).length) :=
  trainSymbol_of_finite sqrt arch xgboost fun _ hr =>
    exists_log_return hP h hvalid (mem_usable hr).1

/-! ## Steady candles of all symbols -/

section Steady

/-- With complete features and positive closes, all rows are trained on but the last ones, which
have no target. -/
theorem length_fetchTrainingData_le {P : Numerics ℝ} (hP : RealFunctions P)
    {features : List (FeatureRow ℝ)} {prices : List (PriceRow (Flt ℝ))} {symbol : Symbol} (now : ℤ)
    (hcomplete : ∀ f ∈ features, f.symbol = symbol → Complete f)
    (hclose : ∀ p ∈ prices, ∃ c, 0 < c ∧ p.close = .fin c) :
    (fetchTrainingData features prices symbol rollingWindowDays now).length ≤
      (usable P features prices symbol now).length + forwardWindow := by
  set df := fetchTrainingData features prices symbol rollingWindowDays now with hdf
  set target := computeForwardRealizedVol P (df.map Prod.snd) forwardWindow with htarget
  have hlen : target.length = df.length := by
    rw [htarget]
    unfold computeForwardRealizedVol
    dsimp only
    rw [List.length_map, List.length_range, length_squaredReturns, List.length_map]
  have hpositive : ∀ x ∈ df.map Prod.snd, ∃ c, 0 < c ∧ x = .fin c := by
    intro x hx
    obtain ⟨r, hr, rfl⟩ := List.mem_map.mp hx
    obtain ⟨p, hp, hr⟩ := List.mem_flatMap.mp ((Backlog.mem_ordered _).mp (hdf ▸ hr))
    obtain ⟨f, _, rfl⟩ := List.mem_map.mp hr
    exact hclose p hp
  have hvalid : ∀ r ∈ ((df.map Prod.fst).zip target).take (df.length - forwardWindow),
      decide (Complete r.1 ∧ (notNan (some r.2)).isSome) = true := by
    intro r hr
    obtain ⟨i, hi, rfl⟩ := List.mem_take_iff_getElem.mp hr
    have hi' : i + forwardWindow < (df.map Prod.snd).length := by
      rw [List.length_map]
      omega
    obtain ⟨closes, hpos, hcloses⟩ := exists_positive fun x hx =>
      hpositive x (List.mem_of_mem_drop (List.mem_of_mem_take (i := forwardWindow + 1) hx))
    have hlabel := getElem?_computeForwardRealizedVol P (df.map Prod.snd) forwardWindow
      (Nat.lt_of_add_right_lt hi')
    rw [if_pos hi', hcloses, windowVol_fin hP hpos, ← htarget] at hlabel
    obtain ⟨hi'', hvalue⟩ := List.getElem?_eq_some_iff.mp hlabel
    rw [List.getElem_zip, hvalue, List.getElem_map]
    refine decide_eq_true ⟨?_, rfl⟩
    have hrow : df[i] ∈ fetchTrainingData features prices symbol rollingWindowDays now :=
      List.getElem_mem _
    obtain ⟨hmem, hsymbol⟩ := mem_fetchTrainingData hrow
    exact hcomplete _ hmem hsymbol
  have hsub := ((List.take_sublist (df.length - forwardWindow)
    ((df.map Prod.fst).zip target)).filter
      fun r => decide (Complete r.1 ∧ (notNan (some r.2)).isSome)).length_le
  rw [List.filter_eq_self.mpr hvalid, List.length_take, List.length_zip, List.length_map, hlen,
    min_self] at hsub
  have hrows : usable P features prices symbol now = ((df.map Prod.fst).zip target).filter
      fun r => decide (Complete r.1 ∧ (notNan (some r.2)).isSome) := rfl
  rw [hrows]
  omega

theorem mem_steadyMarket {n : ℕ} {c : PriceRow ℝ} (hc : c ∈ steadyMarket n) :
    ∃ s ∈ symbols, c ∈ steady s n := List.mem_flatMap.mp hc

theorem valid_steadyMarket (n : ℕ) : ∀ c ∈ steadyMarket n, Valid c := by
  intro c hc
  obtain ⟨s, _, hc⟩ := mem_steadyMarket hc
  exact valid_steady c hc

theorem length_usable_steadyMarket {s : Symbol} (hs : s ∈ symbols) (n : ℕ) {now : ℤ}
    (hnow : now ≤ rollingWindowDays * day) :
    n ≤ (usable realNumerics (consume realNumerics (steadyMarket n)).features
      (floats (consume realNumerics (steadyMarket n)).prices) s now).length + 66 := by
  have hfeatures := mem_features_steadyMarket hs n
  have hnodup : (steadyRows s n).Nodup := by
    rw [← features_steady]
    exact (nodup_features realNumerics _).of_map _
  have hjoin : ∀ f ∈ steadyRows s n, f ∈ (consume realNumerics (steadyMarket n)).features ∧
      f.symbol = s ∧ now - rollingWindowDays * day ≤ f.time ∧
      f.key ∈ (floats (consume realNumerics (steadyMarket n)).prices).map PriceRow.key := by
    intro f hf
    obtain ⟨hmem, hsymbol⟩ := (hfeatures f).mpr hf
    obtain ⟨i, _, hi, rfl⟩ := mem_steadyRows.mp hf
    refine ⟨hmem, hsymbol, ?_, ?_⟩
    · have htime : (rowFor realNumerics (steady s i) (steadyCandle s i)).time = i * minute := rfl
      rw [htime]
      unfold minute
      omega
    · rw [keys_floats]
      exact Restart.mem_keys_prices (List.mem_flatMap.mpr ⟨s, hs, mem_steady.mpr ⟨i, hi, rfl⟩⟩)
  -- all rows from the 61st candle on are joined, and the last five have no label
  have hle := length_le_fetchTrainingData hnodup hjoin
  have hcomplete : ∀ f ∈ (consume realNumerics (steadyMarket n)).features, f.symbol = s →
      Complete f := by
    intro f hf hsymbol
    obtain ⟨i, hi, _, rfl⟩ := mem_steadyRows.mp ((hfeatures f).mp ⟨hf, hsymbol⟩)
    exact complete_steady hi
  have hclose : ∀ p ∈ floats (consume realNumerics (steadyMarket n)).prices,
      ∃ c, 0 < c ∧ p.close = .fin c := by
    intro p hp
    obtain ⟨r, hr, rfl⟩ := List.mem_map.mp hp
    exact ⟨r.close, (valid_steadyMarket n r (Restart.mem_of_mem_prices hr)).close_pos, rfl⟩
  have husable := length_fetchTrainingData_le realFunctions_realNumerics now hcomplete hclose
  rw [length_steadyRows] at hle
  unfold forwardWindow at husable
  omega

/-- An `xgboost` that cannot be used. -/
def noXgboost : Xgboost ℝ := ⟨false, fun _ _ => none⟩

theorem forecast_sampleArch {data : List ℝ} {dist : Dist} {fitted : Fitted ℝ} {error : String}
    (h : sampleArch.fit data dist = .ok fitted) : fitted.forecast 1 ≠ .error error := by
  cases h
  rintro ⟨⟩

/-- The loop comes to its first turn when `n` minutes of candles of each symbol are handled. -/
noncomputable def marketWorld (n : ℕ) : World ℝ :=
  turnWorld realNumerics (n * minute) (steadyMarket n)

theorem length_usable_marketWorld {s : Symbol} (hs : s ∈ symbols) {n : ℕ} (hn : n ≤ 86400) :
    n ≤ (usable realNumerics (marketWorld n).market.features (floats (marketWorld n).market.prices)
      s (marketWorld n).clock).length + 66 := by
  refine length_usable_steadyMarket hs n ?_
  show (n : ℤ) * minute ≤ rollingWindowDays * day
  unfold day minute rollingWindowDays
  omega

/-- The training of a symbol on 134 rows. -/
theorem training_outcome_steady :
    100 ≤ (usable realNumerics (marketWorld 200).market.features
      (floats (marketWorld 200).market.prices) "BTCUSDT" (marketWorld 200).clock).length ∧
    ∃ bundle, trainSymbol realNumerics Real.sqrt sampleArch noXgboost
      (marketWorld 200).market.features (floats (marketWorld 200).market.prices) "BTCUSDT"
      (marketWorld 200).clock = .trained bundle := by
  generalize hn : 200 = n
  have hsymbol : "BTCUSDT" ∈ symbols := by decide
  have hrows := length_usable_marketWorld hsymbol (show n ≤ 86400 by omega)
  obtain ⟨hfailed, hend⟩ := training_outcome regular_realNumerics
    (reachable_turnWorld realNumerics _ (steadyMarket n)) (valid_steadyMarket n) Real.sqrt
    sampleArch noXgboost "BTCUSDT"
  have henough : 100 ≤ (usable realNumerics (marketWorld n).market.features
      (floats (marketWorld n).market.prices) "BTCUSDT" (marketWorld n).clock).length := by omega
  refine ⟨henough, (hend.mpr henough).resolve_right ?_⟩
  rintro ⟨error, herror⟩
  obtain ⟨data, dist, fitted, hfit, hforecast⟩ := hfailed error herror
  exact forecast_sampleArch hfit hforecast

/-! ## A first cycle of trained models -/

theorem Reachable.next {e : Event K} (h : Reachable P sqrt s) (hstep : step P sqrt s e = some s') :
    Reachable P sqrt s' := by
  obtain ⟨t, hreach⟩ := h
  exact ⟨t, hreach.trans (.of_step hstep)⟩

theorem run_market {P : Numerics ℝ} {sqrt : ℝ → ℝ} {s : State ℝ} {es : List (Restart.Event ℝ)}
    {market : Restart.World ℝ} (h : Runs.run (Restart.step P) s.world.market es = some market) :
    Runs.Reachable (step P sqrt) s { s with world := { s.world with market := market } } := by
  refine ⟨es.map .market, ?_⟩
  induction es generalizing s with
  | nil =>
    obtain rfl := Option.some.inj h
    rfl
  | cons e es ih =>
    obtain ⟨m, hm, h'⟩ := Option.bind_eq_some_iff.mp h
    have hstep : step P sqrt s (.market e) =
        some { s with world := { s.world with market := m } } := by
      simp only [step, Pipeline.step, hm, Option.map_some]
    exact Option.bind_eq_some_iff.mpr ⟨_, hstep, ih h'⟩

/-- Each symbol is trained where 166 minutes of its candles are handled. -/
theorem exists_trained {s : Symbol} (hs : s ∈ symbols) {n : ℕ} (h166 : 166 ≤ n) (hn : n ≤ 86400) :
    ∃ bundle, trainSymbol realNumerics Real.sqrt sampleArch noXgboost
      (marketWorld n).market.features (floats (marketWorld n).market.prices) s
      (marketWorld n).clock = .trained bundle := by
  have hrows := length_usable_marketWorld hs hn
  have hreach := reachable_turnWorld realNumerics (n * minute) (steadyMarket n)
  have hfinite : ∀ r ∈ usable realNumerics (marketWorld n).market.features
      (floats (marketWorld n).market.prices) s (marketWorld n).clock,
      ∃ y, column "log_return" r.1 = some (.fin y) := fun _ hr =>
    exists_log_return regular_realNumerics hreach (valid_steadyMarket n) (mem_usable hr).1
  obtain ⟨hfailed, hend⟩ := trainSymbol_of_finite Real.sqrt sampleArch noXgboost hfinite
  refine (hend.mpr (by omega)).resolve_right ?_
  rintro ⟨error, herror⟩
  obtain ⟨data, dist, fitted, hfit, hforecast⟩ := hfailed error herror
  exact forecast_sampleArch hfit hforecast

theorem waitForFeatures_marketWorld {n : ℕ} (h161 : 161 ≤ n) :
    waitForFeatures symbols 100 (marketWorld n).market.features = true := by
  unfold waitForFeatures countsReady
  refine List.all_eq_true.mpr fun s hs => ?_
  have hown := (restricts_consume realNumerics s (steadyMarket n)).features
  rw [ofKind_steadyMarket hs, features_steady] at hown
  have hlen : ((marketWorld n).market.features.filter fun f => f.symbol = s).length = n - 61 :=
    (congrArg List.length hown).trans (length_steadyRows s n)
  simp only [hlen, Bool.and_eq_true, decide_eq_true_eq]
  omega

theorem exists_forecast {n : ℕ} (h166 : 166 ≤ n) (hn : n ≤ 86400) :
    ∃ s : State ℝ, Reachable realNumerics Real.sqrt s ∧ s.world.forecasts ≠ [] := by
  obtain ⟨b₁, hb₁⟩ := exists_trained (s := "BTCUSDT") (by decide) h166 hn
  obtain ⟨b₂, hb₂⟩ := exists_trained (s := "ETHUSDT") (by decide) h166 hn
  obtain ⟨b₃, hb₃⟩ := exists_trained (s := "SOLUSDT") (by decide) h166 hn
  set w : World ℝ := { marketWorld n with inference := none } with hw
  set models : Dict (ModelBundle ℝ) := [("BTCUSDT", b₁), ("ETHUSDT", b₂), ("SOLUSDT", b₃)]
  have hstart : Reachable realNumerics Real.sqrt ⟨w, none⟩ := by
    obtain ⟨es, hrun⟩ := exists_run_consumed realNumerics (steadyMarket n)
    exact ⟨n * minute, run_market (s := ⟨World.start (n * minute), none⟩) hrun⟩
  have hboot : step realNumerics Real.sqrt ⟨w, none⟩ .boot =
      some ⟨w, some ⟨[], .training symbols [], false, []⟩⟩ :=
    if_pos (waitForFeatures_marketWorld (le_trans (by decide) h166))
  have htrain : ∀ {symbol : Symbol} {rest : List Symbol} {newModels : Dict (ModelBundle ℝ)}
      {b : ModelBundle ℝ}, trainSymbol realNumerics Real.sqrt sampleArch noXgboost
        (marketWorld n).market.features (floats (marketWorld n).market.prices) symbol
        (marketWorld n).clock = .trained b →
      step realNumerics Real.sqrt ⟨w, some ⟨[], .training (symbol :: rest) newModels, false, []⟩⟩
        (.train sampleArch noXgboost) = some ⟨w, some ⟨[], .training rest
          (store symbol (.trained b) newModels), false, []⟩⟩ := by
    intro symbol rest newModels b hb
    rw [← hb]
    rfl
  have htrained : step realNumerics Real.sqrt ⟨w, some ⟨[], .training [] models, false, []⟩⟩
      .trained = some ⟨{ w with inference := some .sleeping },
        some ⟨models, .sleeping, true, []⟩⟩ := rfl
  have hcycle : step realNumerics Real.sqrt ⟨{ w with inference := some .sleeping },
      some ⟨models, .sleeping, true, []⟩⟩ .cycle =
        some ⟨marketWorld n, some ⟨models, .sleeping, true, models⟩⟩ := rfl
  let visit := (marketWorld n).visit (some (b₁.answers Real.sqrt))
  -- the 61st candle has the first complete row, and no forecast is stored for it yet
  have hread : rowFor realNumerics (steady "BTCUSDT" 61) (steadyCandle "BTCUSDT" 61) ∈
      readable visit [] "BTCUSDT" :=
    mem_readable_steady (nodup_features realNumerics (steadyMarket n))
      (mem_features_steadyMarket (by decide) n) (by omega)
  have hcall : call realNumerics (marketWorld n) (some (b₁.answers Real.sqrt))
      (.turn ("BTCUSDT" :: symbols.tail)) = some (.inserting "BTCUSDT" (preds "BTCUSDT"
        (b₁.answers Real.sqrt) (readable visit [] "BTCUSDT")) symbols.tail, []) :=
    call_of_readable (List.ne_nil_of_mem hread)
  have hpredict : step realNumerics Real.sqrt
      ⟨marketWorld n, some ⟨models, .sleeping, true, models⟩⟩ .call =
        some ⟨{ marketWorld n with inference := some (.inserting "BTCUSDT" (preds "BTCUSDT"
          (b₁.answers Real.sqrt) (readable visit [] "BTCUSDT")) symbols.tail) },
          some ⟨models, .sleeping, true, models⟩⟩ := by
    show ((call realNumerics (marketWorld n) (some (b₁.answers Real.sqrt))
      (.turn ("BTCUSDT" :: symbols.tail))).map _).map _ = _
    rw [hcall]
    rfl
  cases hrows : preds "BTCUSDT" (b₁.answers Real.sqrt) (readable visit [] "BTCUSDT") with
  | nil =>
    have hown : ∀ f ∈ readable visit [] "BTCUSDT", f.symbol = "BTCUSDT" := fun f hf =>
      (mem_pending.mp (pending_of_readable hf)).2.1
    have hkeys := keys_preds (b₁.answers Real.sqrt) hown
    rw [hrows] at hkeys
    exact absurd (List.map_eq_nil_iff.mp hkeys.symm) (List.ne_nil_of_mem hread)
  | cons row rows =>
    rw [hrows] at hpredict
    have hinsert : step realNumerics Real.sqrt ⟨{ marketWorld n with
        inference := some (.inserting "BTCUSDT" (row :: rows) symbols.tail) },
        some ⟨models, .sleeping, true, models⟩⟩ .call = some ⟨{ marketWorld n with
          inference := some (.inserting "BTCUSDT" rows symbols.tail)
          forecasts := [row] }, some ⟨models, .sleeping, true, models⟩⟩ := rfl
    have htrains := ((hstart.next hboot).next (htrain hb₁)).next (htrain hb₂)
    have hcycles := ((htrains.next (htrain hb₃)).next htrained).next hcycle
    exact ⟨_, (hcycles.next hpredict).next hinsert, by rintro ⟨⟩⟩

/-- A forecast of a model that was trained on 134 rows. -/
theorem forecasts_trained_steady : ∃ s : State ℝ, Reachable realNumerics Real.sqrt s ∧
    s.world.forecasts ≠ [] ∧ ∀ r ∈ s.world.forecasts,
      (∀ vol, r.garchVol = some vol → ¬ vol < .fin 0) ∧
        100 ≤ (completeFeatures s.world.market.features r.symbol).length := by
  obtain ⟨s, hs, hforecasts⟩ := exists_forecast (n := 200) (by decide) (by decide)
  exact ⟨s, hs, hforecasts, forecasts_trained Real.sqrt_nonneg hs⟩

end Steady

end PortfolioEngine.Pipeline.Threads
