import Mathlib.Data.List.Basic
import Mathlib.Data.Nat.Find
import PortfolioEngine.Lib.GoInt

/-!
# The retry loop

`retryableGet` of `ingestion/httpclient.go` as the calls it makes, given how each request ends. A
`time.Duration` is a 64-bit count of nanoseconds.

`Stops o n` says that request `n`, counted from 0, is the last one. It exists for all outcomes and
it determines the run (`retryableGet_of_stops`): `retryableGet_outcome` and `waits_honoured_iff`
are read off from that.
-/

namespace PortfolioEngine.Ingestion

open GoInt

abbrev Bytes := List UInt8

/-! ## The code -/

structure Response where
  statusCode : ℤ
  /-- The header `Retry-After`, empty if there is none. -/
  retryAfter : String
  body : Bytes
  deriving DecidableEq

/-- How a request ends. -/
inductive Outcome where
  | networkError
  | bodyReadError
  | response (resp : Response)
  deriving DecidableEq

inductive GetError where
  | http (statusCode : ℤ) (body : Bytes)
  | exhausted (url : String)
  deriving DecidableEq

inductive GetResult where
  | body (b : Bytes)
  | error (e : GetError)
  deriving DecidableEq

inductive HttpCall where
  | sleep (backoff : ℤ)
  | get
  deriving DecidableEq

def millisecond : ℤ := 1000000

def second : ℤ := 1000 * millisecond

def maxRetries : ℕ := 5

def initialBackoff : ℤ := 200 * millisecond

def maxBackoff : ℤ := 30 * second

/-- The text of an error. -/
def GetError.text : GetError → Bytes
  | http statusCode body => s!"HTTP {statusCode}: ".toUTF8.toList ++ body
  | exhausted url => s!"exhausted {maxRetries} retries for {url}".toUTF8.toList

def nextBackoff (current : ℤ) : ℤ :=
  let next := min (float64 (int64 (current * 2))) (float64 maxBackoff)
  if next < initialBackoff then initialBackoff else next

def retryAfterOrBackoff (resp : Response) (current : ℤ) : ℤ :=
  if resp.retryAfter ≠ "" then
    match atoi resp.retryAfter with
    | some secs => if 0 < secs then int64 (secs * second) else nextBackoff current
    | none => nextBackoff current
  else nextBackoff current

/-- What follows from an outcome: the loop returns, or goes on with a new backoff. -/
inductive Reaction where
  | return (result : GetResult)
  | continue (backoff : ℤ)

/-- The body of the loop after the request. -/
def react (backoff : ℤ) : Outcome → Reaction
  | .networkError => .continue (nextBackoff backoff)
  | .bodyReadError => .continue (nextBackoff backoff)
  | .response resp =>
    if resp.statusCode = 200 then .return (.body resp.body)
    else if resp.statusCode = 429 then .continue (retryAfterOrBackoff resp backoff)
    else if resp.statusCode = 418 then .continue (retryAfterOrBackoff resp maxBackoff)
    else if resp.statusCode = 403 then .continue (retryAfterOrBackoff resp maxBackoff)
    else if resp.statusCode = 408 then .continue (nextBackoff backoff)
    else if resp.statusCode = 503 then .continue (retryAfterOrBackoff resp backoff)
    else if 500 ≤ resp.statusCode then .continue (nextBackoff backoff)
    else .return (.error (.http resp.statusCode resp.body))

/-- The calls of one iteration. -/
def turn (attempt : ℕ) (backoff : ℤ) : List HttpCall :=
  if 0 < attempt then [.sleep backoff, .get] else [.get]

/-- The loop from `attempt` on with `left` iterations left; request `i` ends with `o i`. -/
def getLoop (url : String) (o : ℕ → Outcome) : ℕ → ℕ → ℤ → List HttpCall × GetResult
  | 0, _, _ => ([], .error (.exhausted url))
  | left + 1, attempt, backoff =>
    match react backoff (o attempt) with
    | .return result => (turn attempt backoff, result)
    | .continue next =>
      let rest := getLoop url o left (attempt + 1) next
      (turn attempt backoff ++ rest.1, rest.2)

def retryableGet (url : String) (o : ℕ → Outcome) : List HttpCall × GetResult :=
  getLoop url o (maxRetries + 1) 0 initialBackoff

/-! ## Retryable outcomes -/

/-- Network errors, errors in the body, 429, 418, 403, 408 and all from 500 on. -/
def Outcome.Retryable : Outcome → Prop
  | response resp => resp.statusCode = 429 ∨ resp.statusCode = 418 ∨ resp.statusCode = 403 ∨
      resp.statusCode = 408 ∨ 500 ≤ resp.statusCode
  | _ => True

instance : DecidablePred Outcome.Retryable
  | .networkError => isTrue trivial
  | .bodyReadError => isTrue trivial
  | .response resp => inferInstanceAs (Decidable (resp.statusCode = 429 ∨ resp.statusCode = 418 ∨
      resp.statusCode = 403 ∨ resp.statusCode = 408 ∨ 500 ≤ resp.statusCode))

/-- What a response that is not retried makes of the call. -/
def Response.result (resp : Response) : GetResult :=
  if resp.statusCode = 200 then .body resp.body else .error (.http resp.statusCode resp.body)

/-- The backoff after an outcome. -/
def Outcome.backoff (current : ℤ) : Outcome → ℤ
  | .response resp =>
    if resp.statusCode = 429 ∨ resp.statusCode = 503 then retryAfterOrBackoff resp current
    else if resp.statusCode = 418 ∨ resp.statusCode = 403 then retryAfterOrBackoff resp maxBackoff
    else nextBackoff current
  | _ => nextBackoff current

theorem react_of_retryable {out : Outcome} (h : out.Retryable) (backoff : ℤ) :
    react backoff out = .continue (out.backoff backoff) := by
  rcases out with _ | _ | resp
  · rfl
  · rfl
  · unfold Outcome.Retryable at h
    unfold react Outcome.backoff
    dsimp only
    split_ifs <;> first | rfl | omega

theorem react_of_not_retryable {out : Outcome} (h : ¬ out.Retryable) :
    ∃ resp, out = .response resp ∧ ∀ backoff, react backoff out = .return resp.result := by
  rcases out with _ | _ | resp
  · exact absurd trivial h
  · exact absurd trivial h
  · refine ⟨resp, rfl, fun backoff => ?_⟩
    unfold Outcome.Retryable at h
    unfold react Response.result
    dsimp only
    split_ifs <;> first | rfl | omega

/-! ## The run -/

/-- The backoff before request `k`. -/
def backoffAt (o : ℕ → Outcome) : ℕ → ℤ
  | 0 => initialBackoff
  | k + 1 => (o k).backoff (backoffAt o k)

/-- The loop ends with request `n`. -/
structure Stops (o : ℕ → Outcome) (n : ℕ) : Prop where
  le : n ≤ maxRetries
  before : ∀ i < n, (o i).Retryable
  last : n < maxRetries → ¬ (o n).Retryable

theorem exists_stops (o : ℕ → Outcome) : ∃ n, Stops o n := by
  by_cases h : ∃ n, n < maxRetries ∧ ¬ (o n).Retryable
  · obtain ⟨hlt, hlast⟩ := Nat.find_spec h
    refine ⟨Nat.find h, hlt.le, fun i hi => ?_, fun _ => hlast⟩
    by_contra hret
    exact Nat.find_min h hi ⟨by omega, hret⟩
  · push Not at h
    exact ⟨maxRetries, le_rfl, h, fun hlt => absurd hlt (lt_irrefl _)⟩

/-- The result of a run that ends with request `n`. -/
def resultAt (url : String) : Outcome → GetResult
  | .response resp =>
    if (Outcome.response resp).Retryable then .error (.exhausted url) else resp.result
  | _ => .error (.exhausted url)

theorem resultAt_of_retryable {url : String} {out : Outcome} (h : out.Retryable) :
    resultAt url out = .error (.exhausted url) := by
  rcases out with _ | _ | resp
  · rfl
  · rfl
  · exact if_pos h

section Loop

variable (url : String) {o : ℕ → Outcome} {left attempt n : ℕ}

theorem getLoop_of_retryable (h : (o attempt).Retryable) :
    getLoop url o (left + 1) attempt (backoffAt o attempt) =
      (turn attempt (backoffAt o attempt) ++
          (getLoop url o left (attempt + 1) (backoffAt o (attempt + 1))).1,
        (getLoop url o left (attempt + 1) (backoffAt o (attempt + 1))).2) := by
  rw [getLoop, react_of_retryable h]
  rfl

theorem getLoop_of_not_retryable (h : ¬ (o attempt).Retryable) (backoff : ℤ) :
    getLoop url o (left + 1) attempt backoff =
      (turn attempt backoff, resultAt url (o attempt)) := by
  obtain ⟨resp, hresp, hreact⟩ := react_of_not_retryable h
  have hresult : resultAt url (o attempt) = resp.result := by
    rw [hresp] at h ⊢
    exact if_neg h
  rw [getLoop, hreact, hresult]

theorem getLoop_of_stops (h : Stops o n) (hleft : attempt + left = maxRetries + 1)
    (hattempt : attempt ≤ n) : getLoop url o left attempt (backoffAt o attempt) =
      ((List.range' attempt (n + 1 - attempt)).flatMap fun k => turn k (backoffAt o k),
        resultAt url (o n)) := by
  have hn := h.le
  induction left generalizing attempt with
  | zero => omega
  | succ left ih =>
    by_cases hret : (o attempt).Retryable
    · rw [getLoop_of_retryable url hret]
      rcases hattempt.lt_or_eq with hlt | rfl
      · rw [ih (by omega) hlt, show n + 1 - attempt = n + 1 - (attempt + 1) + 1 by omega,
          List.range'_succ, List.flatMap_cons]
      · -- the last request, so that nothing is left of the loop
        have hlast : attempt = maxRetries := by
          by_contra hne
          exact h.last (by omega) hret
        have hzero : left = 0 := by omega
        rw [hzero, resultAt_of_retryable hret, Nat.add_sub_cancel_left]
        simp [getLoop]
    · obtain rfl : attempt = n := by
        by_contra hne
        exact hret (h.before attempt (by omega))
      rw [getLoop_of_not_retryable url hret, Nat.add_sub_cancel_left]
      simp

end Loop

theorem retryableGet_of_stops (url : String) {o : ℕ → Outcome} {n : ℕ} (h : Stops o n) :
    retryableGet url o =
      (.get :: ((List.range n).map fun k => backoffAt o (k + 1)).flatMap fun d => [.sleep d, .get],
        resultAt url (o n)) := by
  have hloop := getLoop_of_stops url h (Nat.zero_add _) (Nat.zero_le n)
  have hrange : List.range' 0 (n + 1) = 0 :: (List.range n).map (· + 1) := by
    rw [List.range'_succ, List.range'_eq_map_range]
    simp [Nat.add_comm]
  rw [Nat.sub_zero, hrange, List.flatMap_cons, List.flatMap_map] at hloop
  unfold retryableGet
  rw [show initialBackoff = backoffAt o 0 from rfl, hloop, List.flatMap_map]
  rfl

/-! ## Which answer decides -/

/-- How many requests are made. -/
def requests (calls : List HttpCall) : ℕ := calls.count .get

/-- Among the first 6 outcomes, `n` is the first one that is not retryable, the response `resp`. -/
structure FirstAnswer (o : ℕ → Outcome) (n : ℕ) (resp : Response) : Prop where
  lt : n < 6
  before : ∀ i < n, (o i).Retryable
  eq : o n = .response resp
  final : ¬ (o n).Retryable

theorem FirstAnswer.stops {o : ℕ → Outcome} {n : ℕ} {resp : Response} (h : FirstAnswer o n resp) :
    Stops o n := by
  have hn := h.lt
  exact ⟨Nat.le_of_lt_succ hn, h.before, fun _ => h.final⟩

theorem FirstAnswer.resultAt {o : ℕ → Outcome} {n : ℕ} {resp : Response}
    (h : FirstAnswer o n resp) (url : String) : resultAt url (o n) = resp.result := by
  have hfinal := h.final
  rw [h.eq] at hfinal ⊢
  exact if_neg hfinal

theorem requests_run (ds : List ℤ) :
    requests (.get :: ds.flatMap fun d => [.sleep d, .get]) = ds.length + 1 := by
  unfold requests
  rw [List.count_cons_self]
  induction ds with
  | nil => rfl
  | cons d ds ih => simpa using ih

theorem requests_of_stops (url : String) {o : ℕ → Outcome} {n : ℕ} (h : Stops o n) :
    requests (retryableGet url o).1 = n + 1 := by
  rw [retryableGet_of_stops url h, requests_run, List.length_map, List.length_range]

theorem result_eq_body {resp : Response} {b : Bytes} :
    resp.result = .body b ↔ resp.statusCode = 200 ∧ resp.body = b := by
  unfold Response.result
  split_ifs with h <;> simp [h]

theorem result_of_body {url : String} {o : ℕ → Outcome} {b : Bytes}
    (h : (retryableGet url o).2 = .body b) :
    ∃ n resp, FirstAnswer o n resp ∧ resp.result = .body b := by
  obtain ⟨n, hn⟩ := exists_stops o
  rw [retryableGet_of_stops url hn] at h
  by_cases hret : (o n).Retryable
  · rw [resultAt_of_retryable hret] at h
    cases h
  · obtain ⟨resp, hresp, -⟩ := react_of_not_retryable hret
    have hfirst : FirstAnswer o n resp := ⟨Nat.lt_succ_of_le hn.le, hn.before, hresp, hret⟩
    exact ⟨n, resp, hfirst, hfirst.resultAt url ▸ h⟩

/-- **The outcome of the loop.** At most 6 requests, a wait before each but the first and none after
the last; the first answer that is not retryable among 6 decides, and without one the loop is
exhausted. -/
theorem retryableGet_outcome (url : String) (o : ℕ → Outcome) :
    requests (retryableGet url o).1 ≤ 6 ∧
    (∀ b, (retryableGet url o).2 = .body b ↔
      ∃ n resp, FirstAnswer o n resp ∧ resp.statusCode = 200 ∧ resp.body = b) ∧
    (∀ n resp, FirstAnswer o n resp → requests (retryableGet url o).1 = n + 1 ∧
      (retryableGet url o).2 =
        if resp.statusCode = 200 then .body resp.body
        else .error (.http resp.statusCode resp.body)) ∧
    ((∀ i < 6, (o i).Retryable) → requests (retryableGet url o).1 = 6 ∧
      (retryableGet url o).2 = .error (.exhausted url)) ∧
    ∃ ds : List ℤ, (retryableGet url o).1 = .get :: ds.flatMap fun d => [.sleep d, .get] := by
  refine ⟨?_, fun b => ⟨fun h => ?_, ?_⟩, fun n resp h => ?_, fun h => ?_, ?_⟩
  · obtain ⟨n, hn⟩ := exists_stops o
    rw [requests_of_stops url hn]
    exact Nat.succ_le_succ hn.le
  · obtain ⟨n, resp, hfirst, hresult⟩ := result_of_body h
    exact ⟨n, resp, hfirst, result_eq_body.mp hresult⟩
  · rintro ⟨n, resp, hfirst, hbody⟩
    rw [retryableGet_of_stops url hfirst.stops, hfirst.resultAt]
    exact result_eq_body.mpr hbody
  · refine ⟨requests_of_stops url h.stops, ?_⟩
    rw [retryableGet_of_stops url h.stops, h.resultAt]
    rfl
  · have hstops : Stops o maxRetries :=
      ⟨le_rfl, fun i hi => h i (Nat.lt_succ_of_lt hi), fun hlt => absurd hlt (lt_irrefl _)⟩
    refine ⟨requests_of_stops url hstops, ?_⟩
    rw [retryableGet_of_stops url hstops]
    exact resultAt_of_retryable (h maxRetries (Nat.lt_succ_self _))
  · obtain ⟨n, hn⟩ := exists_stops o
    exact ⟨_, congrArg Prod.fst (retryableGet_of_stops url hn)⟩

/-! ## How long it waits -/

/-- The waits, in order; the one at `k` follows the outcome `k`. -/
def waits (calls : List HttpCall) : List ℤ :=
  calls.filterMap fun
    | .sleep d => some d
    | .get => none

/-- The seconds that a response asks to wait for. -/
def Outcome.asked : Outcome → Option ℤ
  | response resp =>
    if resp.statusCode = 429 ∨ resp.statusCode = 418 ∨ resp.statusCode = 403 ∨
        resp.statusCode = 503 then (atoi resp.retryAfter).filter fun s => 0 < s
    else none
  | _ => none

/-- Every wait is at least 200 ms, at least what the response before it asks for, and at most 30 s
if that does not ask. -/
def WaitsHonoured (url : String) (o : ℕ → Outcome) : Prop :=
  ∀ k d, (waits (retryableGet url o).1)[k]? = some d →
    initialBackoff ≤ d ∧ (∀ s, (o k).asked = some s → s * second ≤ d) ∧
      ((o k).asked = none → d ≤ maxBackoff)

theorem float64_maxBackoff : float64 maxBackoff = maxBackoff := float64_eq (by decide)

theorem nextBackoff_mem (current : ℤ) :
    initialBackoff ≤ nextBackoff current ∧ nextBackoff current ≤ maxBackoff := by
  have hle : initialBackoff ≤ maxBackoff := by decide
  unfold nextBackoff
  rw [float64_maxBackoff]
  dsimp only
  split_ifs with h
  · exact ⟨le_rfl, hle⟩
  · exact ⟨not_lt.mp h, min_le_right _ _⟩

theorem retryAfterOrBackoff_eq (resp : Response) (current : ℤ) :
    retryAfterOrBackoff resp current =
      match (atoi resp.retryAfter).filter fun s => 0 < s with
      | some s => int64 (s * second)
      | none => nextBackoff current := by
  unfold retryAfterOrBackoff
  by_cases hempty : resp.retryAfter = ""
  · rw [if_neg (not_not.mpr hempty), hempty]
    rfl
  · rw [if_pos hempty]
    cases atoi resp.retryAfter with
    | none => rfl
    | some s => by_cases hs : 0 < s <;> simp [Option.filter, hs]

/-- The backoff after an outcome: what it asks for, or else the next one of some backoff. -/
theorem backoff_eq (out : Outcome) (current : ℤ) : ∃ c, out.backoff current =
    match out.asked with
    | some s => int64 (s * second)
    | none => nextBackoff c := by
  rcases out with _ | _ | resp
  · exact ⟨current, rfl⟩
  · exact ⟨current, rfl⟩
  · show ∃ c, (if resp.statusCode = 429 ∨ resp.statusCode = 503 then
          retryAfterOrBackoff resp current
        else if resp.statusCode = 418 ∨ resp.statusCode = 403 then
          retryAfterOrBackoff resp maxBackoff
        else nextBackoff current) =
      match (if resp.statusCode = 429 ∨ resp.statusCode = 418 ∨ resp.statusCode = 403 ∨
          resp.statusCode = 503 then (atoi resp.retryAfter).filter fun s => 0 < s else none) with
      | some s => int64 (s * second)
      | none => nextBackoff c
    by_cases h1 : resp.statusCode = 429 ∨ resp.statusCode = 503
    · refine ⟨current, ?_⟩
      rw [if_pos h1, if_pos (by omega), retryAfterOrBackoff_eq]
    by_cases h2 : resp.statusCode = 418 ∨ resp.statusCode = 403
    · refine ⟨maxBackoff, ?_⟩
      rw [if_neg h1, if_pos h2, if_pos (by omega), retryAfterOrBackoff_eq]
    · refine ⟨current, ?_⟩
      rw [if_neg h1, if_neg h2, if_neg (by omega)]

theorem pos_of_asked {out : Outcome} {s : ℤ} (h : out.asked = some s) : 0 < s := by
  rcases out with _ | _ | resp
  · cases h
  · cases h
  · unfold Outcome.asked at h
    dsimp only at h
    split_ifs at h
    exact of_decide_eq_true (Option.filter_eq_some_iff.mp h).2

theorem waits_run (ds : List ℤ) : waits (.get :: ds.flatMap fun d => [.sleep d, .get]) = ds := by
  have hcons : ∀ cs, waits (.get :: cs) = waits cs := fun cs => rfl
  rw [hcons]
  induction ds with
  | nil => rfl
  | cons d ds ih => exact congrArg (d :: ·) ih

theorem waits_of_stops (url : String) {o : ℕ → Outcome} {n : ℕ} (h : Stops o n) {k : ℕ} {d : ℤ} :
    (waits (retryableGet url o).1)[k]? = some d ↔ k < n ∧ (o k).backoff (backoffAt o k) = d := by
  rw [retryableGet_of_stops url h, waits_run, List.getElem?_map]
  by_cases hk : k < n
  · rw [List.getElem?_range hk]
    simp [hk, backoffAt]
  · rw [List.getElem?_eq_none (by rw [List.length_range]; omega)]
    simp [hk]

/-- The wait after an outcome is as it should be exactly if what the outcome asks for fits. -/
theorem backoff_honoured_iff (out : Outcome) (current : ℤ) :
    (initialBackoff ≤ out.backoff current ∧
        (∀ s, out.asked = some s → s * second ≤ out.backoff current) ∧
        (out.asked = none → out.backoff current ≤ maxBackoff)) ↔
      ∀ s, out.asked = some s → s * second < 2 ^ 63 := by
  obtain ⟨c, hc⟩ := backoff_eq out current
  rw [hc]
  cases hasked : out.asked with
  | none =>
    obtain ⟨hlo, hhi⟩ := nextBackoff_mem c
    simp [hlo, hhi]
  | some s =>
    have hpos := pos_of_asked hasked
    have hlt := int64_lt (s * second)
    simp only [Option.some.injEq, forall_eq', reduceCtorEq, false_imp_iff, and_true]
    constructor
    · exact fun h => h.2.trans_lt hlt
    · intro hfits
      unfold initialBackoff second millisecond at *
      rw [int64_eq (by omega) hfits]
      omega

/-- **The waits.** They are honoured exactly if no response that is retried asks for more seconds
than a duration has. -/
theorem waits_honoured_iff (url : String) (o : ℕ → Outcome) :
    WaitsHonoured url o ↔ ∀ k < maxRetries, (∀ i ≤ k, (o i).Retryable) →
      ∀ s, (o k).asked = some s → s * second < 2 ^ 63 := by
  obtain ⟨n, hn⟩ := exists_stops o
  have hle := hn.le
  unfold WaitsHonoured
  constructor
  · intro h k hk hbefore
    have hkn : k < n := by
      by_contra hnk
      exact hn.last (by omega) (hbefore n (by omega))
    exact (backoff_honoured_iff _ _).mp (h k _ ((waits_of_stops url hn).mpr ⟨hkn, rfl⟩))
  · intro h k d hd
    obtain ⟨hkn, rfl⟩ := (waits_of_stops url hn).mp hd
    exact (backoff_honoured_iff _ _).mpr (h k (by omega) fun i hi => hn.before i (by omega))

/-- A header `Retry-After` with more seconds than a duration has. -/
def longBan (k : ℕ) : Outcome :=
  if k = 0 then .response ⟨429, "9223372037", []⟩ else .response ⟨200, "", []⟩

/-- The wait is negative. -/
theorem longBan_not_honoured : ¬ WaitsHonoured "" longBan := by
  intro h
  have hwait : (waits (retryableGet "" longBan).1)[0]? = some (-9223372036709551616) := by decide
  have hlow := (h 0 _ hwait).1
  revert hlow
  decide

end PortfolioEngine.Ingestion
