import Mathlib.Data.List.Basic

/-!
# Runs of a transition system

A system is a partial step function: `step s e` is the state after the event `e`, or `none` where
the event cannot happen in `s`. A run is a list of events that can all happen in turn.
-/

namespace Runs

variable {σ ε : Type*} (step : σ → ε → Option σ)

/-- The state after the events, if they can happen. -/
def run : σ → List ε → Option σ
  | s, [] => some s
  | s, e :: es => (step s e).bind fun s' => run s' es

variable {step}

theorem run_append {s : σ} (es es' : List ε) :
    run step s (es ++ es') = (run step s es).bind fun s' => run step s' es' := by
  induction es generalizing s with
  | nil => rfl
  | cons e es ih =>
    show (step s e).bind _ = ((step s e).bind _).bind _
    cases step s e with
    | none => rfl
    | some t => exact ih

/-- What every step preserves, every run preserves. -/
theorem run_invariant {I : σ → Prop} (hstep : ∀ s e t, I s → step s e = some t → I t)
    {s t : σ} {es : List ε} (hs : I s) (h : run step s es = some t) : I t := by
  induction es generalizing s with
  | nil => exact Option.some.inj h ▸ hs
  | cons e es ih =>
    obtain ⟨s', hs', h'⟩ := Option.bind_eq_some_iff.mp h
    exact ih (hstep s e s' hs hs') h'

/-- What every step relates to the state before it, every run relates to its first state. -/
theorem run_relation {I : σ → Prop} {R : σ → σ → Prop} (hrefl : ∀ s, R s s)
    (htrans : ∀ s t u, R s t → R t u → R s u)
    (hstep : ∀ s e t, I s → step s e = some t → I t ∧ R s t) {s t : σ} {es : List ε} (hs : I s)
    (h : run step s es = some t) : R s t := by
  induction es generalizing s with
  | nil => exact Option.some.inj h ▸ hrefl s
  | cons e es ih =>
    obtain ⟨s', hs', h'⟩ := Option.bind_eq_some_iff.mp h
    obtain ⟨hI, hR⟩ := hstep s e s' hs hs'
    exact htrans s s' t hR (ih hI h')

/-- A map of the states and the events that commutes with the steps commutes with the runs. -/
theorem run_map {I : σ → Prop} {f : σ → σ} {g : ε → ε}
    (hstep : ∀ s e t, I s → step s e = some t → I t)
    (hmap : ∀ s e, I s → step (f s) (g e) = (step s e).map f) {s : σ} (hs : I s) (es : List ε) :
    run step (f s) (es.map g) = (run step s es).map f := by
  induction es generalizing s with
  | nil => rfl
  | cons e es ih =>
    show (step (f s) (g e)).bind _ = ((step s e).bind _).map f
    rw [hmap s e hs]
    cases he : step s e with
    | none => rfl
    | some t => exact ih (hstep s e t hs he)

variable (step) in
/-- Every event of the run meets `P` in the state it happens in. -/
def Along (P : σ → ε → Prop) : σ → List ε → Prop
  | _, [] => True
  | s, e :: es => P s e ∧ ∀ s' ∈ step s e, Along P s' es

theorem along_of_forall {P : σ → ε → Prop} {s : σ} {es : List ε} (h : ∀ e ∈ es, ∀ s, P s e) :
    Along step P s es := by
  induction es generalizing s with
  | nil => trivial
  | cons e es ih =>
    obtain ⟨he, hes⟩ := List.forall_mem_cons.mp h
    exact ⟨he s, fun _ _ => ih hes⟩

theorem Along.append {P : σ → ε → Prop} {s t : σ} {es es' : List ε} (h : Along step P s es)
    (hrun : run step s es = some t) (h' : Along step P t es') : Along step P s (es ++ es') := by
  induction es generalizing s with
  | nil => exact Option.some.inj hrun ▸ h'
  | cons e es ih =>
    obtain ⟨s', hs', hrun'⟩ := Option.bind_eq_some_iff.mp hrun
    refine ⟨h.1, fun s'' hs'' => ?_⟩
    obtain rfl := Option.some.inj (hs'.symm.trans hs'')
    exact ih (h.2 _ hs') hrun'

instance decidableAlong (P : σ → ε → Prop) [∀ s e, Decidable (P s e)] :
    ∀ s es, Decidable (Along step P s es)
  | _, [] => inferInstanceAs (Decidable True)
  | s, e :: es =>
    have := fun s' => decidableAlong P s' es
    inferInstanceAs (Decidable (P s e ∧ ∀ s' ∈ step s e, Along step P s' es))

theorem run_invariant_along {I : σ → Prop} {P : σ → ε → Prop}
    (hstep : ∀ s e t, I s → P s e → step s e = some t → I t) {s t : σ} {es : List ε} (hs : I s)
    (hP : Along step P s es) (h : run step s es = some t) : I t := by
  induction es generalizing s with
  | nil => exact Option.some.inj h ▸ hs
  | cons e es ih =>
    obtain ⟨s', hs', h'⟩ := Option.bind_eq_some_iff.mp h
    exact ih (hstep s e s' hs hP.1 hs') (hP.2 s' hs') h'

/-- What a step keeps exactly if its event is in `P`, a run keeps exactly if all its events are. -/
theorem run_iff_along {I : σ → Prop} {P : σ → ε → Prop}
    (hstep : ∀ s e t, step s e = some t → (I t ↔ I s ∧ P s e)) {s t : σ} {es : List ε}
    (h : run step s es = some t) : I t ↔ I s ∧ Along step P s es := by
  induction es generalizing s with
  | nil =>
    obtain rfl := Option.some.inj h
    exact (and_iff_left trivial).symm
  | cons e es ih =>
    obtain ⟨s', hs', h'⟩ := Option.bind_eq_some_iff.mp h
    have htail : (∀ s'' ∈ step s e, Along step P s'' es) ↔ Along step P s' es := by
      simp [hs']
    rw [ih h', hstep s e s' hs', and_assoc, ← htail]
    rfl

variable (step) in
/-- `I` holds in every state of the run. -/
def Throughout (I : σ → Prop) : σ → List ε → Prop
  | s, [] => I s
  | s, e :: es => I s ∧ ∀ s' ∈ step s e, Throughout I s' es

theorem Throughout.head {I : σ → Prop} {s : σ} {es : List ε} (h : Throughout step I s es) :
    I s := by
  cases es with
  | nil => exact h
  | cons e es => exact h.1

theorem Throughout.imp {I J : σ → Prop} (hIJ : ∀ s, I s → J s) {s : σ} {es : List ε}
    (h : Throughout step I s es) : Throughout step J s es := by
  induction es generalizing s with
  | nil => exact hIJ s h
  | cons e es ih => exact ⟨hIJ s h.1, fun s' hs' => ih (h.2 s' hs')⟩

/-- What every step with an event in `P` preserves holds throughout a run of such events. -/
theorem throughout_of_along {I : σ → Prop} {P : σ → ε → Prop}
    (hstep : ∀ s e t, I s → P s e → step s e = some t → I t) {s : σ} {es : List ε} (hs : I s)
    (hP : Along step P s es) : Throughout step I s es := by
  induction es generalizing s with
  | nil => exact hs
  | cons e es ih =>
    exact ⟨hs, fun s' hs' => ih (hstep s e s' hs hP.1 hs') (hP.2 s' hs')⟩

/-- An invariant may be assumed in every state of a run. -/
theorem throughout_congr {I I' J : σ → Prop} (hstep : ∀ s e t, J s → step s e = some t → J t)
    (hcongr : ∀ s, J s → (I s ↔ I' s)) {s : σ} (hs : J s) (es : List ε) :
    Throughout step I s es ↔ Throughout step I' s es := by
  induction es generalizing s with
  | nil => exact hcongr s hs
  | cons e es ih =>
    refine and_congr (hcongr s hs) (forall₂_congr fun s' hs' => ih (hstep s e s' hs hs'))

/-- If a step out of `I` stays in it exactly by an event in `P`, a run stays in it exactly if all
its events are. -/
theorem throughout_iff_along {I : σ → Prop} {P : σ → ε → Prop}
    (hstep : ∀ s e t, I s → step s e = some t → (I t ↔ P s e)) {s t : σ} {es : List ε} (hs : I s)
    (h : run step s es = some t) : Throughout step I s es ↔ Along step P s es := by
  induction es generalizing s with
  | nil => exact iff_of_true hs trivial
  | cons e es ih =>
    obtain ⟨s', hs', h'⟩ := Option.bind_eq_some_iff.mp h
    have hiff := hstep s e s' hs hs'
    constructor
    · rintro ⟨_, htail⟩
      have hI : I s' := (htail s' hs').head
      refine ⟨hiff.mp hI, fun s'' hs'' => ?_⟩
      obtain rfl := Option.some.inj (hs'.symm.trans hs'')
      exact (ih hI h').mp (htail _ hs')
    · rintro ⟨he, htail⟩
      refine ⟨hs, fun s'' hs'' => ?_⟩
      obtain rfl := Option.some.inj (hs'.symm.trans hs'')
      exact (ih (hiff.mpr he) h').mpr (htail _ hs')

/-- A run that is not all in `P` has a first event outside `P`. -/
theorem exists_of_not_along {P : σ → ε → Prop} {s t : σ} {es : List ε}
    (h : run step s es = some t) (hP : ¬ Along step P s es) :
    ∃ es₁ e es₂ s₁ s₂, es = es₁ ++ e :: es₂ ∧ run step s es₁ = some s₁ ∧ Along step P s es₁ ∧
      ¬ P s₁ e ∧ step s₁ e = some s₂ ∧ run step s₂ es₂ = some t := by
  induction es generalizing s with
  | nil => exact absurd trivial hP
  | cons e es ih =>
    obtain ⟨s', hs', h'⟩ := Option.bind_eq_some_iff.mp h
    by_cases he : P s e
    · have htail : ¬ Along step P s' es := fun htail =>
        hP ⟨he, fun s'' hs'' => Option.some.inj (hs'.symm.trans hs'') ▸ htail⟩
      obtain ⟨es₁, e', es₂, s₁, s₂, rfl, hrun, halong, hrest⟩ := ih h' htail
      refine ⟨e :: es₁, e', es₂, s₁, s₂, rfl, ?_, ?_, hrest⟩
      · exact Option.bind_eq_some_iff.mpr ⟨s', hs', hrun⟩
      · exact ⟨he, fun s'' hs'' => Option.some.inj (hs'.symm.trans hs'') ▸ halong⟩
    · exact ⟨[], e, es, s, s', rfl, rfl, trivial, he, hs', h'⟩

variable (step) in
/-- A state some run from `s₀` leads to. -/
def Reachable (s₀ s : σ) : Prop := ∃ es, run step s₀ es = some s

theorem Reachable.invariant {I : σ → Prop} {s₀ s : σ} (h : Reachable step s₀ s) (h₀ : I s₀)
    (hstep : ∀ s e t, I s → step s e = some t → I t) : I s := by
  obtain ⟨es, hes⟩ := h
  exact run_invariant hstep h₀ hes

theorem Reachable.of_step {s t : σ} {e : ε} (h : step s e = some t) : Reachable step s t :=
  ⟨[e], Option.bind_eq_some_iff.mpr ⟨t, h, rfl⟩⟩

theorem Reachable.trans {s t u : σ} (h : Reachable step s t) (h' : Reachable step t u) :
    Reachable step s u := by
  obtain ⟨es, hes⟩ := h
  obtain ⟨es', hes'⟩ := h'
  refine ⟨es ++ es', ?_⟩
  rw [run_append, hes]
  exact hes'

/-- If each step of a system is a run of another one on the states it is mapped to, so is each
run. -/
theorem Reachable.simulates {σ' ε' : Type*} {step' : σ' → ε' → Option σ'} {f : σ → σ'}
    (hstep : ∀ s e t, step s e = some t → Reachable step' (f s) (f t)) {s t : σ}
    (h : Reachable step s t) : Reachable step' (f s) (f t) := by
  obtain ⟨es, hes⟩ := h
  induction es generalizing s with
  | nil =>
    obtain rfl := Option.some.inj hes
    exact ⟨[], rfl⟩
  | cons e es ih =>
    obtain ⟨s', hs', h'⟩ := Option.bind_eq_some_iff.mp hes
    exact (hstep s e s' hs').trans (ih h')

end Runs
