import PortfolioEngine.Portfolio.Schedule

/-!
# The sleep of the rebalance loop

After each check the loop sleeps for `sleep_s`, at most until the next rebalance but for at least a
second. After an attempt this is computed from the reading before it. The schedule is refined by the
times at which the checks can happen, under three bounds on the host: how late a sleep ends, how
long an attempt takes, and that both fit into a day.

1. `reachable_world`: the timed runs are runs of the schedule.
2. `every_slot_once`: while a process is up, each scheduled instant has exactly one attempt, which
   starts no more than a second and the lateness of a sleep after it.
-/

namespace PortfolioEngine.Schedule

open Ledger

variable {K : Type*}

/-! ## The timed system -/

def second : ℤ := 1000000

/-- `REBALANCE_CHECK_SECONDS`, how late a sleep can end, and how long an attempt can take. -/
structure Timing where
  checkSeconds : ℤ
  jitter : ℤ
  duration : ℤ
  jitter_nonneg : 0 ≤ jitter
  duration_nonneg : 0 ≤ duration
  fits : duration + max 1 checkSeconds * second + (second + jitter) ≤ day

/-- How late an attempt can start. -/
def Timing.lateness (timing : Timing) : ℤ := second + timing.jitter

/-- `sleep_s`, in microseconds. -/
def sleepFor (checkSeconds next now : ℤ) : ℤ :=
  max 1 (min checkSeconds ((next - now).tdiv second)) * second

/-- The schedule, the first reading of the process, the last reading of the loop and the end of its
sleep. -/
structure Timed (K : Type*) where
  world : World K
  since : ℤ
  now : ℤ
  wake : ℤ

variable (timing : Timing) (slot : Slot)

/-- One event of the schedule, at a time at which it can happen. -/
def timedStep (w : Timed K) (e : Event K) : Option (Timed K) :=
  (step slot w.world e).bind fun world =>
    match e with
    | .schedule t =>
      match w.world.process with
      | .attempted =>
        if t ≤ w.now + timing.duration then
          -- `now_utc` is still the reading before the attempt
          let next := nextRebalanceFrom slot t
          some { w with world, wake := t + sleepFor timing.checkSeconds next w.now }
        else none
      | _ => some ⟨world, t, t, t⟩
    | .check t =>
      if w.wake ≤ t ∧ t ≤ w.wake + timing.jitter then
        match world.process with
        | .polling next => some ⟨world, w.since, t, t + sleepFor timing.checkSeconds next t⟩
        | _ => some ⟨world, w.since, t, t⟩
      else none
    | .begin t => if t ≤ w.now + timing.duration then some { w with world } else none
    | _ => some { w with world }

def Timed.start (t : ℤ) : Timed K := ⟨World.start t, t, t, t⟩

variable {timing slot}

theorem step_of_timedStep {w w' : Timed K} {e : Event K}
    (h : timedStep timing slot w e = some w') : step slot w.world e = some w'.world := by
  obtain ⟨world, hworld, h⟩ := Option.bind_eq_some_iff.mp h
  rw [hworld]
  cases e with
  | schedule t =>
    dsimp only at h
    split at h
    · split_ifs at h
      cases h
      rfl
    · cases h
      rfl
  | check t =>
    dsimp only at h
    split_ifs at h
    split at h
    · cases h
      rfl
    · cases h
      rfl
  | begin t =>
    dsimp only at h
    split_ifs at h
    cases h
    rfl
  | launch => cases h; rfl
  | store row => cases h; rfl
  | complete => cases h; rfl
  | raise => cases h; rfl
  | crash => cases h; rfl

theorem reachable_world {w w' : Timed K} (h : Runs.Reachable (timedStep timing slot) w w') :
    Runs.Reachable (step slot) w.world w'.world :=
  h.simulates (f := Timed.world) fun _ e _ hstep => ⟨[e], by
    show (step slot _ e).bind _ = _
    rw [step_of_timedStep hstep]
    rfl⟩

/-! ## The sleep -/

theorem sleepFor_le (checkSeconds next now : ℤ) :
    sleepFor checkSeconds next now ≤ max 1 checkSeconds * second := by
  unfold sleepFor second
  have hle : max 1 (min checkSeconds ((next - now).tdiv 1000000)) ≤ max 1 checkSeconds :=
    max_le_max le_rfl (min_le_left _ _)
  omega

theorem sleepFor_nonneg (checkSeconds next now : ℤ) : 0 ≤ sleepFor checkSeconds next now := by
  unfold sleepFor second
  have hle : 1 ≤ max 1 (min checkSeconds ((next - now).tdiv 1000000)) := le_max_left _ _
  omega

/-- The loop does not sleep past the next rebalance by more than a second. -/
theorem add_sleepFor_le {checkSeconds next now : ℤ} (h : now ≤ next) :
    now + sleepFor checkSeconds next now ≤ next + second := by
  have htdiv : (next - now).tdiv second * second ≤ next - now := by
    rw [Int.tdiv_eq_ediv_of_nonneg (by omega)]
    exact Int.ediv_mul_le _ (by decide)
  have hmin := min_le_right checkSeconds ((next - now).tdiv second)
  unfold sleepFor
  rcases max_cases 1 (min checkSeconds ((next - now).tdiv second)) with ⟨hmax, _⟩ | ⟨hmax, _⟩
  · rw [hmax]
    omega
  · rw [hmax]
    unfold second at *
    omega

/-! ## The invariant -/

section Invariant

/-- The instant `s` has an attempt in time. -/
def Covered (timing : Timing) (w : Timed K) (s : ℤ) : Prop :=
  ∃ a ∈ w.world.attempts, s ≤ a.due ∧ a.due ≤ s + timing.lateness

/-- The instants before `t` since the start of the process are covered. -/
def CoveredBefore (timing : Timing) (slot : Slot) (w : Timed K) (t : ℤ) : Prop :=
  ∀ s, Scheduled slot s → w.since < s → s < t → Covered timing w s

/-- After a check that was due: the instant that it was due to, and the time since. -/
def Attempting (timing : Timing) (slot : Slot) (w : Timed K) : Prop :=
  ∃ next, Scheduled slot next ∧ next ≤ w.now ∧ w.now ≤ next + timing.lateness ∧
    w.now ≤ w.world.clock ∧ w.world.clock ≤ w.now + timing.duration ∧
    CoveredBefore timing slot w (next + 1)

/-- What holds of the process. -/
def TimedPhase (timing : Timing) (slot : Slot) (w : Timed K) : Process → Prop
  | .polling next => Scheduled slot next ∧ CoveredBefore timing slot w next ∧
      w.world.clock ≤ w.wake ∧ w.wake ≤ next + second
  | .due next now => now = w.now ∧ w.world.clock = w.now ∧ Scheduled slot next ∧
      CoveredBefore timing slot w next ∧ next ≤ w.now ∧ w.now ≤ next + timing.lateness
  | .running _ => Attempting timing slot w
  | .stored _ => Attempting timing slot w
  | .attempted => Attempting timing slot w
  | _ => True

/-- The invariant of the timed system. -/
structure TimedInv (timing : Timing) (slot : Slot) (w : Timed K) : Prop where
  process : TimedPhase timing slot w w.world.process
  attempts : ∀ a ∈ w.world.attempts, a.due ≤ a.started

/-- A new schedule: nothing that it skips is left out. -/
theorem coveredBefore_nextRebalanceFrom {w : Timed K} {t : ℤ}
    (h : ∀ s, Scheduled slot s → w.since < s → s ≤ t → Covered timing w s) :
    CoveredBefore timing slot w (nextRebalanceFrom slot t) := by
  intro s hs hsince hlt
  refine h s hs hsince (not_lt.mp fun hc => ?_)
  have hfirst := (nextRebalanceFrom_spec slot t).2.2 s hc hs
  omega

theorem CoveredBefore.congr {w w' : Timed K} {t : ℤ} (h : CoveredBefore timing slot w t)
    (hattempts : ∀ a ∈ w.world.attempts, a ∈ w'.world.attempts) (hsince : w'.since = w.since) :
    CoveredBefore timing slot w' t := by
  intro s hs hlater hlt
  obtain ⟨a, ha, hdue⟩ := h s hs (hsince ▸ hlater) hlt
  exact ⟨a, hattempts a ha, hdue⟩

theorem Attempting.congr {w w' : Timed K} (h : Attempting timing slot w)
    (hattempts : w'.world.attempts = w.world.attempts) (hclock : w'.world.clock = w.world.clock)
    (hsince : w'.since = w.since) (hnow : w'.now = w.now) : Attempting timing slot w' := by
  obtain ⟨next, hnext, hreached, hlate, hle, hduration, hcovered⟩ := h
  refine ⟨next, hnext, ?_, ?_, ?_, ?_, hcovered.congr (fun a ha => hattempts ▸ ha) hsince⟩
  · rwa [hnow]
  · rwa [hnow]
  · rwa [hnow, hclock]
  · rwa [hnow, hclock]

theorem TimedInv.schedule {w : Timed K} (h : TimedInv timing slot w) {t : ℤ}
    (ht : w.world.clock ≤ t) (hw : w.world.process = .attempted)
    (hduration : t ≤ w.now + timing.duration) :
    TimedInv timing slot
      ⟨{ w.world with clock := t, process := .polling (nextRebalanceFrom slot t) }, w.since, w.now,
        t + sleepFor timing.checkSeconds (nextRebalanceFrom slot t) w.now⟩ := by
  have hprocess := h.process
  rw [hw] at hprocess
  obtain ⟨next, hnext, hreached, hlate, hle, _, hcovered⟩ := hprocess
  obtain ⟨hafter, hsched, _⟩ := nextRebalanceFrom_spec slot t
  have hfits := timing.fits
  have hpos : 0 < max 1 timing.checkSeconds * second :=
    mul_pos (lt_of_lt_of_le one_pos (le_max_left _ _)) (by decide)
  -- the attempt ends well before the next slot
  have hday : next + day ≤ nextRebalanceFrom slot t := hnext.add_day_le hsched (by omega)
  unfold Timing.lateness at hlate
  refine ⟨⟨hsched, coveredBefore_nextRebalanceFrom fun s hs hsince hst => ?_, ?_, ?_⟩, h.attempts⟩
  · refine hcovered s hs hsince ?_
    by_contra hlt
    have hs' : next + day ≤ s := hnext.add_day_le hs (by omega)
    omega
  · have hsleep := sleepFor_nonneg timing.checkSeconds (nextRebalanceFrom slot t) w.now
    show t ≤ t + _
    omega
  · have hsleep := sleepFor_le timing.checkSeconds (nextRebalanceFrom slot t) w.now
    have hsecond : 0 < second := by decide
    have hjitter := timing.jitter_nonneg
    show t + _ ≤ _
    omega

theorem TimedInv.check {w : Timed K} (h : TimedInv timing slot w) {next t : ℤ}
    (hw : w.world.process = .polling next) (hjitter : t ≤ w.wake + timing.jitter) :
    (t < next → TimedInv timing slot
      ⟨{ w.world with clock := t, process := .polling next }, w.since, t,
        t + sleepFor timing.checkSeconds next t⟩) ∧
    (next ≤ t → TimedInv timing slot
      ⟨{ w.world with clock := t, process := .due next t }, w.since, t, t⟩) := by
  have hprocess := h.process
  rw [hw] at hprocess
  obtain ⟨hsched, hcovered, _, hwake⟩ := hprocess
  have hcovered' : ∀ (process : Process) (wake : ℤ), CoveredBefore timing slot
      ⟨{ w.world with clock := t, process := process }, w.since, t, wake⟩ next :=
    fun _ _ => hcovered.congr (fun a ha => ha) rfl
  constructor
  · intro hlt
    have hsleep := sleepFor_nonneg timing.checkSeconds next t
    refine ⟨⟨hsched, hcovered' _ _, ?_, add_sleepFor_le hlt.le⟩, h.attempts⟩
    show t ≤ t + _
    omega
  · intro hreached
    refine ⟨⟨rfl, rfl, hsched, hcovered' _ _, hreached, ?_⟩, h.attempts⟩
    show t ≤ next + (second + timing.jitter)
    omega

/-- The attempt covers the instant that was waited for. -/
theorem TimedInv.begin {w : Timed K} (h : TimedInv timing slot w) {next now t : ℤ}
    (hw : w.world.process = .due next now) (ht : w.world.clock ≤ t)
    (hduration : t ≤ w.now + timing.duration) :
    TimedInv timing slot
      { w with
        world := { w.world with
          clock := t
          process := .running (truncMinute t)
          attempts := w.world.attempts ++ [⟨now, t⟩] } } := by
  have hprocess := h.process
  rw [hw] at hprocess
  obtain ⟨rfl, hclock, hsched, hcovered, hreached, hlate⟩ := hprocess
  refine ⟨⟨next, hsched, hreached, hlate, by show w.now ≤ t; omega, hduration, ?_⟩, ?_⟩
  · intro s hs hsince hlt
    by_cases hnext : s = next
    · subst hnext
      exact ⟨_, List.mem_append_right _ (List.mem_singleton_self _), hreached, hlate⟩
    · obtain ⟨a, ha, hdue⟩ := hcovered s hs hsince (by omega)
      exact ⟨a, List.mem_append_left _ ha, hdue⟩
  · intro a ha
    rcases List.mem_append.mp ha with ha | ha
    · exact h.attempts a ha
    · rw [List.mem_singleton.mp ha]
      show w.now ≤ t
      omega

theorem TimedInv.step {w w' : Timed K} {e : Event K} (h : TimedInv timing slot w)
    (hstep : timedStep timing slot w e = some w') : TimedInv timing slot w' := by
  have hprocess := h.process
  obtain ⟨world, hworld, hstep⟩ := Option.bind_eq_some_iff.mp hstep
  cases steps_of_step slot hworld with
  | launch hw =>
    cases hstep
    exact ⟨trivial, h.attempts⟩
  | schedule t ht hw =>
    rcases hw with hw | hw
    · rw [hw] at hstep
      cases hstep
      -- no instant lies between the schedule and the next rebalance
      obtain ⟨hafter, hsched, _⟩ := nextRebalanceFrom_spec slot t
      refine ⟨⟨hsched, coveredBefore_nextRebalanceFrom fun s _ hsince hst => ?_, le_rfl, ?_⟩,
        h.attempts⟩
      · exact absurd hsince (not_lt.mpr hst)
      · have hsecond : 0 < second := by decide
        show t ≤ _
        omega
    · rw [hw] at hstep
      dsimp only at hstep
      split_ifs at hstep with hduration
      cases hstep
      exact h.schedule ht hw hduration
  | notYet next t hw ht =>
    dsimp only at hstep
    split_ifs at hstep with htime
    cases hstep
    refine (h.check hw htime.2).1 (not_le.mp fun hreached => ?_)
    -- a check that reaches the next rebalance is due
    simp only [Schedule.step, hw, if_pos ht, if_pos hreached, Option.some.injEq] at hworld
    cases congrArg World.process hworld
  | due next t hw ht hreached =>
    dsimp only at hstep
    split_ifs at hstep with htime
    cases hstep
    exact (h.check hw htime.2).2 hreached
  | begin next now t hw ht =>
    dsimp only at hstep
    split_ifs at hstep with hduration
    cases hstep
    exact h.begin hw ht hduration
  | store row ts hw =>
    rw [hw] at hprocess
    cases hstep
    exact ⟨hprocess.congr rfl rfl rfl rfl, h.attempts⟩
  | complete ts hw =>
    rw [hw] at hprocess
    cases hstep
    exact ⟨hprocess.congr rfl rfl rfl rfl, h.attempts⟩
  | raise ts hw =>
    cases hstep
    rcases hw with hw | hw
    · rw [hw] at hprocess
      exact ⟨hprocess.congr rfl rfl rfl rfl, h.attempts⟩
    · rw [hw] at hprocess
      exact ⟨hprocess.congr rfl rfl rfl rfl, h.attempts⟩
  | crash =>
    cases hstep
    exact ⟨trivial, h.attempts⟩

theorem TimedInv.start (t : ℤ) : TimedInv timing slot (Timed.start t : Timed K) :=
  ⟨trivial, fun _ ha => absurd ha List.not_mem_nil⟩

end Invariant

/-! ## Every run -/

/-- The loop is running. -/
def Process.Up : Process → Prop
  | .down => False
  | .waiting => False
  | _ => True

/-- What is late enough is covered. -/
theorem TimedInv.covered {w : Timed K} (h : TimedInv timing slot w) (hup : w.world.process.Up)
    {s : ℤ} (hs : Scheduled slot s) (hsince : w.since < s)
    (hlate : s + timing.lateness < w.world.clock) : Covered timing w s := by
  have hjitter := timing.jitter_nonneg
  have hfits := timing.fits
  have hpos : 0 < max 1 timing.checkSeconds * second :=
    mul_pos (lt_of_lt_of_le one_pos (le_max_left _ _)) (by decide)
  have hattempting : Attempting timing slot w → Covered timing w s := by
    rintro ⟨next, hnext, _, hnow, _, hduration, hcovered⟩
    refine hcovered s hs hsince ?_
    by_contra hlt
    -- slots are a day apart, so the one after `next` is not late yet
    have hday : next + day ≤ s := hnext.add_day_le hs (by omega)
    unfold Timing.lateness at hnow hlate
    omega
  have hprocess := h.process
  cases hw : w.world.process with
  | down => rw [hw] at hup; exact hup.elim
  | waiting => rw [hw] at hup; exact hup.elim
  | polling next =>
    rw [hw] at hprocess
    obtain ⟨_, hcovered, hclock, hwake⟩ := hprocess
    unfold Timing.lateness at hlate
    exact hcovered s hs hsince (by omega)
  | due next now =>
    rw [hw] at hprocess
    obtain ⟨_, hclock, _, hcovered, _, hnow⟩ := hprocess
    exact hcovered s hs hsince (by omega)
  | running ts =>
    rw [hw] at hprocess
    exact hattempting hprocess
  | stored ts =>
    rw [hw] at hprocess
    exact hattempting hprocess
  | attempted =>
    rw [hw] at hprocess
    exact hattempting hprocess

/-- Two attempts for one instant are one. -/
theorem attempt_unique {w : Timed K} (hinv : Inv slot w.world) (h : TimedInv timing slot w) {s : ℤ}
    (hs : Scheduled slot s) {a b : Attempt} (ha : a ∈ w.world.attempts) (hb : b ∈ w.world.attempts)
    (hsa : s ≤ a.due ∧ a.due ≤ s + timing.lateness)
    (hsb : s ≤ b.due ∧ b.due ≤ s + timing.lateness) :
    a = b := by
  have hfits := timing.fits
  have hduration := timing.duration_nonneg
  have hpos : 0 < max 1 timing.checkSeconds * second :=
    mul_pos (lt_of_lt_of_le one_pos (le_max_left _ _)) (by decide)
  unfold Timing.lateness at hsa hsb
  -- the instant between them would be less than a day after `s`
  have hnot : ∀ {x y : Attempt}, x ∈ w.world.attempts → s ≤ x.due →
      y.due ≤ s + (second + timing.jitter) → ¬ Separated slot x y := by
    rintro x y hx hsx hsy ⟨u, hu, hxu, huy, _⟩
    have hle := h.attempts x hx
    have hday : s + day ≤ u := hs.add_day_le hu (by omega)
    omega
  have hpair : w.world.attempts.Pairwise fun x y => Separated slot x y ∨ Separated slot y x :=
    hinv.separated.imp Or.inl
  have hsymm : Std.Symm fun x y => Separated slot x y ∨ Separated slot y x :=
    ⟨fun x y h => h.symm⟩
  by_contra hne
  rcases hpair.forall ha hb hne with hab | hba
  · exact hnot ha hsa.1 hsb.2 hab
  · exact hnot hb hsb.1 hsa.2 hba

/-- **Every slot once.** If a sleep ends in time, and an attempt with a sleep after it fits into a
day, then each scheduled instant since the start of a process that is up has exactly one attempt,
which starts at most a second and the lateness of a sleep after it. -/
theorem every_slot_once {timing : Timing} {slot : Slot} {t : ℤ} {es : List (Event K)} {w : Timed K}
    (h : Runs.run (timedStep timing slot) (Timed.start t) es = some w) (hup : w.world.process.Up)
    {s : ℤ} (hs : Scheduled slot s) (hsince : w.since < s)
    (hlate : s + timing.lateness < w.world.clock) :
    ∃! a, a ∈ w.world.attempts ∧ s ≤ a.due ∧ a.due ≤ s + timing.lateness := by
  have htimed : TimedInv timing slot w :=
    Runs.run_invariant (fun _ _ _ hi hstep => hi.step hstep) (TimedInv.start t) h
  have hinv : Inv slot w.world :=
    (reachable_world ⟨es, h⟩).invariant (Inv.start t) fun _ _ _ hi hstep => hi.step hstep
  obtain ⟨a, ha, hdue⟩ := htimed.covered hup hs hsince hlate
  exact ⟨a, ⟨ha, hdue⟩, fun b ⟨hb, hdue'⟩ => attempt_unique hinv htimed hs hb ha hdue' hdue⟩

/-- Checks every 30 seconds, sleeps that end within a second, attempts of at most a minute. -/
def usualTiming : Timing where
  checkSeconds := 30
  jitter := second
  duration := minute
  jitter_nonneg := by decide
  duration_nonneg := by decide
  fits := by decide

/-- A process that comes up ten seconds before midnight. -/
def midnight : List (Event ℚ) :=
  let row : PortfolioRow ℚ := ⟨0, [], none, none, none, none, none, none, none⟩
  [.launch, .schedule (day - 10 * second), .check (day - 10 * second), .check day, .begin day,
    .store row, .complete, .schedule (day + 5 * second), .check (day + 35 * second)]

theorem every_slot_once_midnight :
    ∃ w : Timed ℚ, Runs.run (timedStep usualTiming ⟨0, 0⟩) (Timed.start 0) midnight = some w ∧
      ∃! a, a ∈ w.world.attempts ∧ day ≤ a.due ∧ a.due ≤ day + usualTiming.lateness := by
  have hrun : (Runs.run (timedStep usualTiming ⟨0, 0⟩) (Timed.start 0) midnight).map
      (fun w => (w.world.process, w.since, w.world.clock)) =
        some (.polling (2 * day), day - 10 * second, day + 35 * second) := by decide +kernel
  obtain ⟨w, hw, hstate⟩ := Option.map_eq_some_iff.mp hrun
  obtain ⟨hprocess, hsince, hclock⟩ : w.world.process = .polling (2 * day) ∧
      w.since = day - 10 * second ∧ w.world.clock = day + 35 * second :=
    ⟨congrArg Prod.fst hstate, congrArg (fun x => x.2.1) hstate,
      congrArg (fun x => x.2.2) hstate⟩
  refine ⟨w, hw, every_slot_once hw (by rw [hprocess]; trivial) (by decide) ?_ ?_⟩
  · rw [hsince]
    decide
  · rw [hclock]
    decide

end PortfolioEngine.Schedule
