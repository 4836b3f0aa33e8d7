import PortfolioEngine.Lib.Runs
import PortfolioEngine.Portfolio.Ledger

/-!
# The rebalance schedule

`main` of `portfolio_engine/main.py`: after every attempt, and whenever the process starts, the
next rebalance is the first scheduled instant after a fresh reading of the clock, and the loop
attempts a rebalance once a reading reaches it. `_run_rebalance` reads the clock again and stores
its row under that reading, truncated to the minute. An attempt can raise and the process can be
killed at any point.

1. `nextRebalanceFrom_spec`: the next rebalance is the first scheduled instant after the reading.
2. `Inv.step`: the scheduled instant that a process waits for is later than every attempt so far,
   of this process and of the ones before it.
3. `one_rebalance_per_slot`: any two attempts have a scheduled instant between them, so that the
   rows are stored under increasing timestamps and none replaces another.
-/

namespace PortfolioEngine.Schedule

open Ledger

variable {K : Type*}

/-! ## Scheduled instants -/

/-- `REBALANCE_HOUR_UTC` and `REBALANCE_MINUTE_UTC`. -/
structure Slot where
  hour : Fin 24
  minute : Fin 60

/-- The time of the day. -/
def Slot.offset (slot : Slot) : ℤ := (slot.hour * 60 + slot.minute) * PortfolioEngine.minute

/-- `now.replace(hour=.., minute=.., second=0, microsecond=0)`. -/
def replaceTime (slot : Slot) (now : ℤ) : ℤ := now / day * day + slot.offset

/-- `_next_rebalance_from`. -/
def nextRebalanceFrom (slot : Slot) (now : ℤ) : ℤ :=
  let target := replaceTime slot now
  if target ≤ now then target + day else target

/-- The instants of the slot, one a day. -/
def Scheduled (slot : Slot) (t : ℤ) : Prop := t % day = slot.offset

instance (slot : Slot) (t : ℤ) : Decidable (Scheduled slot t) := by
  unfold Scheduled; infer_instance

theorem Slot.offset_bounds (slot : Slot) : 0 ≤ slot.offset ∧ slot.offset < day := by
  have hh := slot.hour.isLt
  have hm := slot.minute.isLt
  unfold Slot.offset day PortfolioEngine.minute
  omega

theorem scheduled_replaceTime (slot : Slot) (now : ℤ) : Scheduled slot (replaceTime slot now) := by
  obtain ⟨h0, hday⟩ := slot.offset_bounds
  unfold Scheduled replaceTime
  rw [add_comm, Int.add_mul_emod_self_right]
  exact Int.emod_eq_of_lt h0 hday

theorem Scheduled.add_day {slot : Slot} {t : ℤ} (h : Scheduled slot t) :
    Scheduled slot (t + day) := by
  unfold Scheduled
  rw [Int.add_emod_right]
  exact h

theorem truncMinute_le (t : ℤ) : truncMinute t ≤ t := by
  unfold PortfolioEngine.truncMinute PortfolioEngine.minute
  omega

theorem Scheduled.truncMinute {slot : Slot} {t : ℤ} (h : Scheduled slot t) : truncMinute t = t := by
  unfold Scheduled Slot.offset at h
  unfold PortfolioEngine.truncMinute
  unfold day PortfolioEngine.minute at *
  omega

theorem Scheduled.add_day_le {slot : Slot} {s t : ℤ} (hs : Scheduled slot s)
    (ht : Scheduled slot t) (h : s < t) : s + day ≤ t := by
  unfold Scheduled day PortfolioEngine.minute at *
  omega

/-- The next rebalance is the first scheduled instant after the reading. -/
theorem nextRebalanceFrom_spec (slot : Slot) (now : ℤ) :
    now < nextRebalanceFrom slot now ∧ Scheduled slot (nextRebalanceFrom slot now) ∧
      ∀ t, now < t → Scheduled slot t → nextRebalanceFrom slot now ≤ t := by
  have hsched := scheduled_replaceTime slot now
  have hbefore : replaceTime slot now < now + day := by
    have hoffset := slot.offset_bounds
    have hpos : (0 : ℤ) < day := by decide
    have hle := Int.ediv_mul_le now hpos.ne'
    unfold replaceTime
    omega
  have hafter : now < replaceTime slot now + day := by
    have hoffset := slot.offset_bounds
    have hlt := Int.lt_ediv_add_one_mul_self now (show (0 : ℤ) < day by decide)
    rw [add_mul, one_mul] at hlt
    unfold replaceTime
    omega
  unfold nextRebalanceFrom
  dsimp only
  split_ifs with hle
  · exact ⟨hafter, hsched.add_day, fun t ht hs => hsched.add_day_le hs (hle.trans_lt ht)⟩
  · refine ⟨not_le.mp hle, hsched, fun t ht hs => ?_⟩
    by_contra hlt
    have := hs.add_day_le hsched (not_le.mp hlt)
    omega

/-! ## The system -/

/-- How far `main` has come. -/
inductive Process where
  | down
  /-- Up to the first schedule: the tables and the three waits. -/
  | waiting
  | polling (next : ℤ)
  /-- The reading `now` has reached `next`; `_run_rebalance` is called. -/
  | due (next now : ℤ)
  | running (ts : ℤ)
  | stored (ts : ℤ)
  | attempted
  deriving DecidableEq

/-- A call of `_run_rebalance`: the reading of the loop and its own one. -/
structure Attempt where
  due : ℤ
  started : ℤ
  deriving DecidableEq

/-- The clock, the process, the attempts so far and `portfolio_state`, with the rows that were
inserted into it. -/
structure World (K : Type*) where
  clock : ℤ
  process : Process
  attempts : List Attempt
  inserted : List (PortfolioRow K)
  table : List (PortfolioRow K)
  deriving DecidableEq

/-- The events; `t` is the clock reading of the step. -/
inductive Event (K : Type*) where
  | launch
  | schedule (t : ℤ)
  | check (t : ℤ)
  | begin (t : ℤ)
  | store (row : PortfolioRow K)
  | complete
  | raise
  | crash

variable (slot : Slot)

/-- One event. The sleep between two checks is left open: any reading may follow that is not
earlier than the last one. -/
def step (w : World K) : Event K → Option (World K)
  | .launch => if w.process = .down then some { w with process := .waiting } else none
  | .schedule t =>
    if w.clock ≤ t ∧ (w.process = .waiting ∨ w.process = .attempted) then
      some { w with clock := t, process := .polling (nextRebalanceFrom slot t) }
    else none
  | .check t =>
    match w.process with
    | .polling next =>
      if w.clock ≤ t then
        some { w with clock := t, process := if next ≤ t then .due next t else .polling next }
      else none
    | _ => none
  | .begin t =>
    match w.process with
    | .due _ now =>
      if w.clock ≤ t then
        some { w with
          clock := t
          process := .running (truncMinute t)
          attempts := w.attempts ++ [⟨now, t⟩] }
      else none
    | _ => none
  | .store row =>
    match w.process with
    | .running ts =>
      let row := { row with time := ts }
      some { w with
        process := .stored ts
        inserted := w.inserted ++ [row]
        table := insertPortfolioState row w.table }
    | _ => none
  | .complete =>
    match w.process with
    | .stored _ => some { w with process := .attempted }
    | _ => none
  | .raise =>
    match w.process with
    | .running _ => some { w with process := .attempted }
    | .stored _ => some { w with process := .attempted }
    | _ => none
  | .crash => some { w with process := .down }

/-- No process and no rows at the instant `t`. -/
def World.start (t : ℤ) : World K := ⟨t, .down, [], [], []⟩

/-- What one event does, guards included. -/
inductive Steps (w : World K) : Event K → World K → Prop
  | launch (process : w.process = .down) : Steps w .launch { w with process := .waiting }
  | schedule (t : ℤ) (clock : w.clock ≤ t)
      (process : w.process = .waiting ∨ w.process = .attempted) :
      Steps w (.schedule t) { w with clock := t, process := .polling (nextRebalanceFrom slot t) }
  | notYet (next t : ℤ) (process : w.process = .polling next) (clock : w.clock ≤ t) :
      Steps w (.check t) { w with clock := t, process := .polling next }
  | due (next t : ℤ) (process : w.process = .polling next) (clock : w.clock ≤ t)
      (reached : next ≤ t) : Steps w (.check t) { w with clock := t, process := .due next t }
  | begin (next now t : ℤ) (process : w.process = .due next now) (clock : w.clock ≤ t) :
      Steps w (.begin t)
        { w with
          clock := t
          process := .running (truncMinute t)
          attempts := w.attempts ++ [⟨now, t⟩] }
  | store (row : PortfolioRow K) (ts : ℤ) (process : w.process = .running ts) :
      Steps w (.store row)
        { w with
          process := .stored ts
          inserted := w.inserted ++ [{ row with time := ts }]
          table := insertPortfolioState { row with time := ts } w.table }
  | complete (ts : ℤ) (process : w.process = .stored ts) :
      Steps w .complete { w with process := .attempted }
  | raise (ts : ℤ) (process : w.process = .running ts ∨ w.process = .stored ts) :
      Steps w .raise { w with process := .attempted }
  | crash : Steps w .crash { w with process := .down }

theorem steps_of_step {w w' : World K} {e : Event K} (h : step slot w e = some w') :
    Steps slot w e w' := by
  cases e with
  | launch =>
    unfold step at h
    split_ifs at h with hc
    cases h
    exact .launch hc
  | schedule t =>
    unfold step at h
    dsimp only at h
    split at h
    · cases h
      exact .schedule t (‹_ ∧ _›).1 (‹_ ∧ _›).2
    · cases h
  | check t =>
    unfold step at h
    dsimp only at h
    split at h
    · split_ifs at h with hc hnext
      · cases h
        exact .due _ t ‹_› hc hnext
      · cases h
        exact .notYet _ t ‹_› hc
    · cases h
  | begin t =>
    unfold step at h
    dsimp only at h
    split at h
    · split_ifs at h with hc
      cases h
      exact .begin _ _ t ‹_› hc
    · cases h
  | store row =>
    unfold step at h
    dsimp only at h
    split at h
    · cases h
      exact .store row _ ‹_›
    · cases h
  | complete =>
    unfold step at h
    dsimp only at h
    split at h
    · cases h
      exact .complete _ ‹_›
    · cases h
  | raise =>
    unfold step at h
    dsimp only at h
    split at h
    · cases h
      exact .raise _ (Or.inl ‹_›)
    · cases h
      exact .raise _ (Or.inr ‹_›)
    · cases h
  | crash =>
    cases h
    exact .crash

/-! ## The invariant -/

/-- A scheduled instant lies between the two attempts. -/
def Separated (x y : Attempt) : Prop :=
  ∃ s, Scheduled slot s ∧ x.started < s ∧ s ≤ y.due ∧ s ≤ y.started

/-- A scheduled instant after every attempt. -/
def After (w : World K) (next : ℤ) : Prop :=
  Scheduled slot next ∧ ∀ x ∈ w.attempts, x.started < next

/-- What holds of the process. -/
def ProcessInv (w : World K) : Process → Prop
  | .polling next => After slot w next
  | .due next now => After slot w next ∧ next ≤ now ∧ now ≤ w.clock
  | .running ts =>
    (∃ x ∈ w.attempts, ts = truncMinute x.started) ∧ ∀ r ∈ w.inserted, r.time < ts
  | _ => True

/-- The invariant of the system. -/
structure Inv (w : World K) : Prop where
  clock : ∀ x ∈ w.attempts, x.started ≤ w.clock
  process : ProcessInv slot w w.process
  separated : w.attempts.Pairwise (Separated slot)
  rows : ∀ r ∈ w.inserted, ∃ x ∈ w.attempts, r.time = truncMinute x.started
  increasing : w.inserted.Pairwise fun r s => r.time < s.time
  table : w.table = w.inserted

variable {slot}

/-- An attempt begins: its row will be later than every row so far. -/
theorem Inv.begin {w : World K} (h : Inv slot w) {next now t : ℤ}
    (hw : w.process = .due next now) (ht : w.clock ≤ t) :
    Inv slot { w with
      clock := t
      process := .running (truncMinute t)
      attempts := w.attempts ++ [⟨now, t⟩] } := by
  have hprocess := h.process
  rw [hw] at hprocess
  obtain ⟨⟨hsched, hafter⟩, hreached, hnow⟩ := hprocess
  have hnext : next ≤ t := hreached.trans (hnow.trans ht)
  have hnew : ∀ x ∈ w.attempts, Separated slot x ⟨now, t⟩ := fun x hx =>
    ⟨next, hsched, hafter x hx, hreached, hnext⟩
  refine ⟨?_, ?_, ?_, ?_, h.increasing, h.table⟩
  · intro x hx
    rcases List.mem_append.mp hx with hx | hx
    · exact (h.clock x hx).trans ht
    · rw [List.mem_singleton.mp hx]
  · -- The instant that was waited for is a whole minute, so truncation does not go below it.
    refine ⟨⟨_, List.mem_append_right _ (List.mem_singleton_self _), rfl⟩, fun r hr => ?_⟩
    obtain ⟨x, hx, hrx⟩ := h.rows r hr
    calc r.time = truncMinute x.started := hrx
      _ ≤ x.started := truncMinute_le _
      _ < next := hafter x hx
      _ = truncMinute next := hsched.truncMinute.symm
      _ ≤ truncMinute t := truncMinute_mono hnext
  · refine List.pairwise_append.mpr ⟨h.separated, List.pairwise_singleton _ _, ?_⟩
    intro x hx y hy
    exact List.mem_singleton.mp hy ▸ hnew x hx
  · intro r hr
    obtain ⟨x, hx, hrx⟩ := h.rows r hr
    exact ⟨x, List.mem_append_left _ hx, hrx⟩

/-- The row of the attempt is stored after every other one. -/
theorem Inv.store {w : World K} (h : Inv slot w) {ts : ℤ} (hw : w.process = .running ts)
    (row : PortfolioRow K) :
    Inv slot { w with
      process := .stored ts
      inserted := w.inserted ++ [{ row with time := ts }]
      table := insertPortfolioState { row with time := ts } w.table } := by
  have hprocess := h.process
  rw [hw] at hprocess
  obtain ⟨⟨x, hx, hts⟩, hlast⟩ := hprocess
  refine ⟨h.clock, trivial, h.separated, ?_, ?_, ?_⟩
  · intro r hr
    rcases List.mem_append.mp hr with hr | hr
    · exact h.rows r hr
    · rw [List.mem_singleton.mp hr]
      exact ⟨x, hx, hts⟩
  · refine List.pairwise_append.mpr ⟨h.increasing, List.pairwise_singleton _ _, ?_⟩
    intro r hr s hs
    rw [List.mem_singleton.mp hs]
    exact hlast r hr
  · show Tables.upsert PortfolioRow.time _ w.table = _
    rw [h.table]
    exact Tables.upsert_of_lt hlast

theorem Inv.step {w w' : World K} {e : Event K} (h : Inv slot w)
    (hstep : step slot w e = some w') : Inv slot w' := by
  have hprocess := h.process
  have hlater : ∀ {t : ℤ}, w.clock ≤ t → ∀ x ∈ w.attempts, x.started ≤ t :=
    fun ht x hx => (h.clock x hx).trans ht
  cases steps_of_step slot hstep with
  | launch hw => exact ⟨h.clock, trivial, h.separated, h.rows, h.increasing, h.table⟩
  | schedule t ht hw =>
    obtain ⟨hnext, hsched, _⟩ := nextRebalanceFrom_spec slot t
    exact ⟨hlater ht, ⟨hsched, fun x hx => (hlater ht x hx).trans_lt hnext⟩, h.separated, h.rows,
      h.increasing, h.table⟩
  | notYet next t hw ht =>
    rw [hw] at hprocess
    exact ⟨hlater ht, hprocess, h.separated, h.rows, h.increasing, h.table⟩
  | due next t hw ht hreached =>
    rw [hw] at hprocess
    exact ⟨hlater ht, ⟨hprocess, hreached, le_rfl⟩, h.separated, h.rows, h.increasing, h.table⟩
  | begin next now t hw ht => exact h.begin hw ht
  | store row ts hw => exact h.store hw row
  | complete ts hw => exact ⟨h.clock, trivial, h.separated, h.rows, h.increasing, h.table⟩
  | raise ts hw => exact ⟨h.clock, trivial, h.separated, h.rows, h.increasing, h.table⟩
  | crash => exact ⟨h.clock, trivial, h.separated, h.rows, h.increasing, h.table⟩

theorem Inv.start (t : ℤ) : Inv slot (World.start t : World K) := by
  refine ⟨?_, trivial, List.Pairwise.nil, ?_, List.Pairwise.nil, rfl⟩
  · exact fun x hx => absurd hx List.not_mem_nil
  · exact fun r hr => absurd hr List.not_mem_nil

/-! ## Every run -/

/-- **One rebalance per slot.** In every run there is a scheduled instant between any two attempts,
later than the start of the first one and not later than the start of the second one; the rows
have strictly increasing timestamps, and the table has all of them. -/
theorem one_rebalance_per_slot {t : ℤ} {es : List (Event K)} {w : World K}
    (h : Runs.run (step slot) (World.start t) es = some w) :
    w.attempts.Pairwise (Separated slot) ∧
    (w.inserted.Pairwise fun r s => r.time < s.time) ∧ w.table = w.inserted := by
  have hinv : Inv slot w := Runs.run_invariant (fun _ _ _ hi hs => hi.step hs) (Inv.start t) h
  exact ⟨hinv.separated, hinv.increasing, hinv.table⟩

/-- A run at midnight: an attempt that stores its row and is cut by a crash in the scheduled
minute, and a restart whose next attempt is a day later. -/
def crashedRun : List (Event ℚ) :=
  let row : PortfolioRow ℚ := ⟨0, [], none, none, none, none, none, none, none⟩
  [.launch, .schedule 5, .check (day + 1), .begin (day + 2), .store row, .crash, .launch,
    .schedule (day + 3), .check (day + 4), .check (2 * day), .begin (2 * day), .store row,
    .complete]

theorem one_rebalance_per_slot_crash :
    ∃ w : World ℚ, Runs.run (step ⟨0, 0⟩) (World.start 0) crashedRun = some w ∧
      w.attempts.length = 2 ∧ w.attempts.Pairwise (Separated ⟨0, 0⟩) ∧
      (w.inserted.Pairwise fun r s => r.time < s.time) ∧ w.table = w.inserted := by
  have hrun : (Runs.run (step ⟨0, 0⟩) (World.start 0) crashedRun).map
      (fun w => w.attempts.length) = some 2 := by decide +kernel
  obtain ⟨w, hw, hlen⟩ := Option.map_eq_some_iff.mp hrun
  exact ⟨w, hw, hlen, one_rebalance_per_slot hw⟩

end PortfolioEngine.Schedule
