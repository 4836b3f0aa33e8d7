import Mathlib.Data.List.Chain

/-!
# Bounded loops

`for _ in range(k)` around a body that may break. From the state `s` one pass, `body s`, breaks for
a reason or leads to the next state; it is `none` where the body raises.

A rank bounds the loop (`Ranked.exists_run`): where each pass lowers the rank, or leads to a state
in which the body breaks, there is at most one pass more than the rank, and a loop that may make
that many is left by a break.
-/

namespace Loops

universe u v

/-- What one pass through the body does. -/
inductive Pass (σ : Type u) (ε : Type v) where
  | stop (e : ε)
  | next (s : σ)

/-- A loop as it was run: out of passes, left by a break, or one pass and the rest. -/
inductive Run (σ : Type u) (ε : Type v) where
  | exhausted (s : σ)
  | stopped (s : σ) (e : ε)
  | pass (s : σ) (r : Run σ ε)
  deriving DecidableEq

variable {σ : Type u} {ε : Type v}

namespace Run

/-- The states the loop goes through, the one it is left in last. -/
def states : Run σ ε → List σ
  | exhausted s => [s]
  | stopped s _ => [s]
  | pass s r => s :: r.states

/-- The state the loop is left in. -/
def last : Run σ ε → σ
  | exhausted s => s
  | stopped s _ => s
  | pass _ r => r.last

/-- The passes that were begun, the one that breaks among them. -/
def passes : Run σ ε → ℕ
  | exhausted _ => 0
  | stopped _ _ => 1
  | pass _ r => r.passes + 1

/-- The reason of the break, if the loop was left by one. -/
def reason : Run σ ε → Option ε
  | exhausted _ => none
  | stopped _ e => some e
  | pass _ r => r.reason

end Run

/-- `for _ in range(k)`. -/
def run (body : σ → Option (Pass σ ε)) : ℕ → σ → Option (Run σ ε)
  | 0, s => some (.exhausted s)
  | k + 1, s => (body s).bind fun
    | .stop e => some (.stopped s e)
    | .next t => (run body k t).map (.pass s)

variable {body : σ → Option (Pass σ ε)} {s t : σ} {e : ε} {k : ℕ} {r : Run σ ε}

theorem run_stop (h : body s = some (.stop e)) (k : ℕ) :
    run body (k + 1) s = some (.stopped s e) := by
  simp only [run, h, Option.bind_some]

theorem run_next (h : body s = some (.next t)) (k : ℕ) :
    run body (k + 1) s = (run body k t).map (.pass s) := by
  simp only [run, h, Option.bind_some]

/-- The first pass of a run, if it may make one. -/
theorem run_succ_cases (h : run body (k + 1) s = some r) :
    (∃ e, body s = some (.stop e) ∧ r = .stopped s e) ∨
      ∃ t r', body s = some (.next t) ∧ run body k t = some r' ∧ r = .pass s r' := by
  obtain ⟨p, hp, hr⟩ := Option.bind_eq_some_iff.mp h
  cases p with
  | stop e => exact .inl ⟨e, hp, (Option.some.inj hr).symm⟩
  | next t =>
    obtain ⟨r', hr', rfl⟩ := Option.map_eq_some_iff.mp hr
    exact .inr ⟨t, r', hp, hr', rfl⟩

theorem head?_states (h : run body k s = some r) : r.states.head? = some s := by
  cases k with
  | zero => obtain rfl := Option.some.inj h; rfl
  | succ k =>
    obtain ⟨e, _, rfl⟩ | ⟨t, r', _, _, rfl⟩ := run_succ_cases h
    · rfl
    · rfl

/-- A run goes from each state to the next by a pass, and an invariant of the passes holds in all
of them. -/
theorem isChain_states {I : σ → Prop} (hI : ∀ s t, I s → body s = some (.next t) → I t)
    (hs : I s) (h : run body k s = some r) :
    r.states.IsChain fun s t => I s ∧ body s = some (.next t) := by
  induction k generalizing s r with
  | zero => obtain rfl := Option.some.inj h; exact .singleton s
  | succ k ih =>
    obtain ⟨e, _, rfl⟩ | ⟨t, r', ht, hr', rfl⟩ := run_succ_cases h
    · exact .singleton s
    · refine (ih (hI s t hs ht) hr').cons fun t' ht' => ?_
      rw [head?_states hr', Option.mem_some_iff] at ht'
      exact ⟨hs, ht' ▸ ht⟩

theorem body_last (h : run body k s = some r) (he : r.reason = some e) :
    body r.last = some (.stop e) := by
  induction k generalizing s r with
  | zero => obtain rfl := Option.some.inj h; cases he
  | succ k ih =>
    obtain ⟨e', hstop, rfl⟩ | ⟨t, r', _, hr', rfl⟩ := run_succ_cases h
    · obtain rfl := Option.some.inj he
      exact hstop
    · show body r'.last = some (.stop e)
      exact ih hr' he

/-! ## Ranks -/

/-- The body does not raise where `I` holds and keeps it, and a pass lowers the rank or leads to a
state in which the body breaks. -/
structure Ranked (body : σ → Option (Pass σ ε)) (I : σ → Prop) (rank : σ → ℕ) : Prop where
  total : ∀ s, I s → ∃ p, body s = some p
  next : ∀ s t, I s → body s = some (.next t) → I t
  pos : ∀ s t, I s → body s = some (.next t) → 0 < rank s
  drop : ∀ s t, I s → body s = some (.next t) →
    rank t < rank s ∨ ∃ e, body t = some (.stop e)

variable {I : σ → Prop} {rank : σ → ℕ}

theorem exists_run_of_stop (h : body s = some (.stop e)) (k : ℕ) :
    ∃ r, run body k s = some r ∧ r.passes ≤ 1 ∧ (0 < k → r.reason.isSome) := by
  cases k with
  | zero => exact ⟨.exhausted s, rfl, Nat.zero_le 1, fun hk => absurd hk (Nat.lt_irrefl 0)⟩
  | succ k => exact ⟨.stopped s e, run_stop h k, Nat.le_refl 1, fun _ => rfl⟩

/-- A ranked loop makes at most one pass more than its rank, and with that many is left by a
break. -/
theorem Ranked.exists_run (h : Ranked body I rank) (k : ℕ) (hs : I s) :
    ∃ r, run body k s = some r ∧ r.passes ≤ rank s + 1 ∧ (rank s < k → r.reason.isSome) := by
  induction k generalizing s with
  | zero => exact ⟨.exhausted s, rfl, Nat.zero_le _, fun hk => absurd hk (Nat.not_lt_zero _)⟩
  | succ k ih =>
    obtain ⟨p, hp⟩ := h.total s hs
    cases p with
    | stop e => exact ⟨.stopped s e, run_stop hp k, by unfold Run.passes; omega, fun _ => rfl⟩
    | next t =>
      have hpos := h.pos s t hs hp
      obtain ⟨r, hr, hpasses, hreason⟩ : ∃ r, run body k t = some r ∧ r.passes ≤ rank s ∧
          (rank s ≤ k → r.reason.isSome) := by
        rcases h.drop s t hs hp with hlt | ⟨e, he⟩
        · obtain ⟨r, hr, hpasses, hreason⟩ := ih (h.next s t hs hp)
          exact ⟨r, hr, by omega, fun hk => hreason (by omega)⟩
        · obtain ⟨r, hr, hpasses, hreason⟩ := exists_run_of_stop he k
          exact ⟨r, hr, by omega, fun hk => hreason (by omega)⟩
      refine ⟨.pass s r, by rw [run_next hp, hr, Option.map_some], ?_, fun hk => ?_⟩
      · unfold Run.passes; omega
      · exact hreason (by omega)

end Loops
