import Mathlib.Data.Finset.Card
import Mathlib.Data.List.Nodup
import PortfolioEngine.Gateway.WriteExclusion

/-!
# The connection gauge

`registerClient` adds a connection to `clients` under the lock and increments `connections` after
it. `unregisterClient` deletes and decrements under the lock, if the connection is there; the
broadcasters call it for the connections on which a write failed, and the handler of a connection
calls it when it returns. A state is the map, the gauge and where each goroutine is; an event is
one step of one goroutine.

`gauge_iff`: the gauge is the number of clients less the registrations in flight. So with any
client some interleavings bring it below 0, and a run has no such state exactly if each connection
is counted down while there are more clients than registrations in flight.
-/

namespace PortfolioEngine.Connections

open Runs
open WriteExclusion (Broadcaster)

variable {κ : Type*} [DecidableEq κ]

/-! ## The goroutines -/

/-- Where `handleLiveWS` is. -/
inductive HandlerPhase where
  /-- The client has not connected. -/
  | absent
  /-- In `registerClient`, before the increment. -/
  | registering
  | serving
  | returned
  deriving DecidableEq

/-- `registered` and `countedDown` record what has happened; no step reads them. -/
structure State (κ : Type*) where
  clients : Finset κ
  connections : ℤ
  handler : κ → HandlerPhase
  /-- The dead connections that a broadcaster has still to unregister. -/
  dead : Broadcaster → List κ
  registered : Finset κ
  countedDown : List κ

/-- No client has connected. -/
def initial : State κ := ⟨∅, 0, fun _ => .absent, fun _ => [], ∅, []⟩

/-! ## The steps -/

/-- One step of one goroutine. -/
inductive Event (κ : Type*) where
  /-- `registerClient`: the connection is added. -/
  | insert (conn : κ)
  /-- `registerClient`: the gauge is incremented. -/
  | increment (conn : κ)
  /-- `broadcast`: the loop over the clients, in which the writes on `dead` fail. -/
  | broadcast (b : Broadcaster) (dead : List κ)
  /-- `broadcast`: `unregisterClient` of the next dead connection. -/
  | unregisterDead (b : Broadcaster)
  /-- The deferred `unregisterClient`. -/
  | unregisterOld (conn : κ)

/-- `unregisterClient`. -/
def State.unregister (s : State κ) (conn : κ) : State κ :=
  if conn ∈ s.clients then
    { s with
      clients := s.clients.erase conn
      connections := s.connections - 1
      countedDown := s.countedDown ++ [conn] }
  else s

/-- The first step of `registerClient`. -/
def State.insertClient (s : State κ) (conn : κ) : State κ :=
  { s with clients := insert conn s.clients, registered := insert conn s.registered }

/-- The second one. -/
def State.increment (s : State κ) : State κ := { s with connections := s.connections + 1 }

def State.setHandler (s : State κ) (conn : κ) (phase : HandlerPhase) : State κ :=
  { s with handler := Function.update s.handler conn phase }

/-- The state after an event, which happens only where its goroutine has come to it. -/
def step (s : State κ) : Event κ → Option (State κ)
  | .insert conn =>
    if s.handler conn = .absent then some ((s.setHandler conn .registering).insertClient conn)
    else none
  | .increment conn =>
    if s.handler conn = .registering then some (s.setHandler conn .serving).increment else none
  | .broadcast b dead =>
    if s.dead b = [] ∧ dead.Nodup ∧ dead.toFinset ⊆ s.clients then
      some { s with dead := Function.update s.dead b dead }
    else none
  | .unregisterDead b =>
    match s.dead b with
    | [] => none
    | conn :: rest => some ({ s with dead := Function.update s.dead b rest }.unregister conn)
  | .unregisterOld conn =>
    if s.handler conn = .serving then some ((s.setHandler conn .returned).unregister conn) else none

/-! ## The gauge -/

/-- The connections whose `registerClient` is between its two steps. -/
def State.inFlight (s : State κ) : Finset κ :=
  s.registered.filter fun conn => s.handler conn = .registering

/-- The gauge is a possible count: not negative, at most the connections ever registered, no
connection counted down twice, and the size of the map where no registration is in flight. -/
structure PossibleCount (s : State κ) : Prop where
  nonneg : 0 ≤ s.connections
  le_registered : s.connections ≤ s.registered.card
  counted_once : s.countedDown.Nodup
  eq_clients : s.inFlight = ∅ → s.connections = s.clients.card

/-- The connection that a step unregisters. -/
def State.unregisters (s : State κ) : Event κ → Option κ
  | .unregisterDead b => (s.dead b).head?
  | .unregisterOld conn => some conn
  | _ => none

/-- If the step counts a connection down, there are more clients than registrations in flight. -/
def Covered (s : State κ) (e : Event κ) : Prop :=
  ∀ conn ∈ s.unregisters e, conn ∈ s.clients → s.inFlight.card < s.clients.card

/-- A connection is unregistered only after its own increment. -/
def Settled (s : State κ) (e : Event κ) : Prop := ∀ conn ∈ s.unregisters e, conn ∉ s.inFlight

instance (s : State κ) (e : Event κ) : Decidable (Settled s e) :=
  inferInstanceAs (Decidable (∀ conn ∈ s.unregisters e, conn ∉ s.inFlight))

/-! ## What holds in every state -/

structure Inv (s : State κ) : Prop where
  gauge : s.connections = s.clients.card - s.inFlight.card
  mem_registered : ∀ conn, conn ∈ s.registered ↔ s.handler conn ≠ .absent
  clients_subset : s.clients ⊆ s.registered
  counted_once : s.countedDown.Nodup
  gone : ∀ conn ∈ s.countedDown, conn ∈ s.registered ∧ conn ∉ s.clients

omit [DecidableEq κ] in
theorem inv_initial : Inv (initial : State κ) where
  gauge := by simp [initial, State.inFlight]
  mem_registered conn := by simp [initial]
  clients_subset := Finset.empty_subset _
  counted_once := List.nodup_nil
  gone conn h := nomatch h

omit [DecidableEq κ] in
/-- Under the invariant only the sign of the gauge is left open. -/
theorem Inv.possibleCount_iff {s : State κ} (h : Inv s) : PossibleCount s ↔ 0 ≤ s.connections := by
  refine ⟨PossibleCount.nonneg, fun hnonneg => ⟨hnonneg, ?_, h.counted_once, fun hempty => ?_⟩⟩
  · have hcard := Finset.card_le_card h.clients_subset
    have hgauge := h.gauge
    omega
  · have hgauge := h.gauge
    rw [hempty, Finset.card_empty] at hgauge
    omega

section Step

variable {s t : State κ} {conn : κ}

theorem step_cases {e : Event κ} (h : step s e = some t) :
    (∃ conn, e = .insert conn ∧ s.handler conn = .absent ∧
      t = (s.setHandler conn .registering).insertClient conn) ∨
    (∃ conn, e = .increment conn ∧ s.handler conn = .registering ∧
      t = (s.setHandler conn .serving).increment) ∨
    (∃ b dead, e = .broadcast b dead ∧
      (s.dead b = [] ∧ dead.Nodup ∧ dead.toFinset ⊆ s.clients) ∧
      t = { s with dead := Function.update s.dead b dead }) ∨
    (∃ b conn rest, e = .unregisterDead b ∧ s.dead b = conn :: rest ∧
      t = { s with dead := Function.update s.dead b rest }.unregister conn) ∨
    ∃ conn, e = .unregisterOld conn ∧ s.handler conn = .serving ∧
      t = (s.setHandler conn .returned).unregister conn := by
  cases e with
  | insert conn =>
    simp only [step] at h
    split_ifs at h with hconn
    exact Or.inl ⟨conn, rfl, hconn, (Option.some.inj h).symm⟩
  | increment conn =>
    simp only [step] at h
    split_ifs at h with hconn
    exact Or.inr (Or.inl ⟨conn, rfl, hconn, (Option.some.inj h).symm⟩)
  | broadcast b dead =>
    simp only [step] at h
    split_ifs at h with hdead
    exact Or.inr (Or.inr (Or.inl ⟨b, dead, rfl, hdead, (Option.some.inj h).symm⟩))
  | unregisterDead b =>
    simp only [step] at h
    split at h
    · cases h
    next conn rest hdead =>
      exact Or.inr (Or.inr (Or.inr (Or.inl ⟨b, conn, rest, rfl, hdead, (Option.some.inj h).symm⟩)))
  | unregisterOld conn =>
    simp only [step] at h
    split_ifs at h with hconn
    exact Or.inr (Or.inr (Or.inr (Or.inr ⟨conn, rfl, hconn, (Option.some.inj h).symm⟩)))

theorem inFlight_setHandler {phase : HandlerPhase} (hphase : phase ≠ .registering) :
    (s.setHandler conn phase).inFlight = s.inFlight.erase conn := by
  ext c
  unfold State.inFlight State.setHandler
  by_cases hc : c = conn <;> simp [hc, hphase]

theorem inFlight_insertClient :
    ((s.setHandler conn .registering).insertClient conn).inFlight = insert conn s.inFlight := by
  ext c
  unfold State.inFlight State.setHandler State.insertClient
  by_cases hc : c = conn <;> simp [hc]

omit [DecidableEq κ] in
theorem mem_inFlight (h : Inv s) : conn ∈ s.inFlight ↔ s.handler conn = .registering := by
  unfold State.inFlight
  rw [Finset.mem_filter, h.mem_registered]
  constructor
  · exact And.right
  · intro hphase
    simp [hphase]

theorem Inv.insertClient (h : Inv s) (hconn : s.handler conn = .absent) :
    Inv ((s.setHandler conn .registering).insertClient conn) := by
  have hnew : conn ∉ s.registered := fun hc => (h.mem_registered conn).mp hc hconn
  have hclients : conn ∉ s.clients := fun hc => hnew (h.clients_subset hc)
  have hflight : conn ∉ s.inFlight := fun hc => hnew (Finset.mem_filter.mp hc).1
  constructor
  · rw [inFlight_insertClient, Finset.card_insert_of_notMem hflight]
    show s.connections = (insert conn s.clients).card - _
    rw [Finset.card_insert_of_notMem hclients, h.gauge]
    push_cast
    omega
  · intro c
    show c ∈ insert conn s.registered ↔ Function.update s.handler conn _ c ≠ _
    by_cases hc : c = conn <;> simp [hc, h.mem_registered]
  · exact Finset.insert_subset_insert conn h.clients_subset
  · exact h.counted_once
  · intro c hc
    obtain ⟨hreg, hgone⟩ := h.gone c hc
    refine ⟨Finset.mem_insert_of_mem hreg, fun hmem => ?_⟩
    rcases Finset.mem_insert.mp hmem with rfl | hmem
    · exact hnew hreg
    · exact hgone hmem

theorem mem_registered_setHandler (h : Inv s) {phase : HandlerPhase} (hphase : phase ≠ .absent)
    (hconn : s.handler conn ≠ .absent) (c : κ) :
    c ∈ s.registered ↔ (s.setHandler conn phase).handler c ≠ .absent := by
  show _ ↔ Function.update s.handler conn phase c ≠ _
  by_cases hc : c = conn <;> simp [hc, h.mem_registered, hphase, hconn]

theorem Inv.increment (h : Inv s) (hconn : s.handler conn = .registering) :
    Inv (s.setHandler conn .serving).increment := by
  have hflight : conn ∈ s.inFlight := (mem_inFlight h).mpr hconn
  have hcard := Finset.card_erase_add_one hflight
  refine ⟨?_, mem_registered_setHandler h (by decide) (by simp [hconn]), h.clients_subset,
    h.counted_once, h.gone⟩
  have herase : (s.setHandler conn .serving).increment.inFlight = s.inFlight.erase conn :=
    inFlight_setHandler (by decide)
  rw [herase]
  show s.connections + 1 = _
  rw [h.gauge]
  show (s.clients.card : ℤ) - s.inFlight.card + 1 = s.clients.card - (s.inFlight.erase conn).card
  omega

omit [DecidableEq κ] in
theorem Inv.setDead (h : Inv s) (b : Broadcaster) (dead : List κ) :
    Inv { s with dead := Function.update s.dead b dead } :=
  ⟨h.gauge, h.mem_registered, h.clients_subset, h.counted_once, h.gone⟩

theorem Inv.setReturned (h : Inv s) (hconn : s.handler conn = .serving) :
    Inv (s.setHandler conn .returned) := by
  have hflight : conn ∉ s.inFlight := by simp [mem_inFlight h, hconn]
  refine ⟨?_, mem_registered_setHandler h (by decide) (by simp [hconn]), h.clients_subset,
    h.counted_once, h.gone⟩
  rw [inFlight_setHandler (by decide), Finset.erase_eq_of_notMem hflight]
  exact h.gauge

theorem Inv.unregister (h : Inv s) (conn : κ) : Inv (s.unregister conn) := by
  unfold State.unregister
  split_ifs with hconn
  · have hcard := Finset.card_erase_add_one hconn
    refine ⟨?_, h.mem_registered, (Finset.erase_subset conn _).trans h.clients_subset, ?_, ?_⟩
    · show s.connections - 1 = ((s.clients.erase conn).card : ℤ) - s.inFlight.card
      rw [h.gauge]
      omega
    · refine List.nodup_append.mpr ⟨h.counted_once, List.nodup_singleton conn, ?_⟩
      rintro c hc d hd rfl
      rw [List.mem_singleton] at hd
      exact (h.gone c hc).2 (hd ▸ hconn)
    · intro c hc
      rcases List.mem_append.mp hc with hc | hc
      · exact ⟨(h.gone c hc).1, fun hmem => (h.gone c hc).2 (Finset.mem_of_mem_erase hmem)⟩
      · obtain rfl := List.mem_singleton.mp hc
        exact ⟨h.clients_subset hconn, Finset.notMem_erase c _⟩
  · exact h

theorem Inv.step {e : Event κ} (h : Inv s) (hstep : step s e = some t) : Inv t := by
  obtain ⟨conn, -, hconn, rfl⟩ | ⟨conn, -, hconn, rfl⟩ | ⟨b, dead, -, -, rfl⟩ |
    ⟨b, conn, rest, -, -, rfl⟩ | ⟨conn, -, hconn, rfl⟩ := step_cases hstep
  · exact h.insertClient hconn
  · exact h.increment hconn
  · exact h.setDead b dead
  · exact (h.setDead b rest).unregister conn
  · exact (h.setReturned hconn).unregister conn

theorem nonneg_unregister (h : Inv s) (hs : 0 ≤ s.connections) :
    0 ≤ (s.unregister conn).connections ↔
      (conn ∈ s.clients → s.inFlight.card < s.clients.card) := by
  have hgauge := h.gauge
  unfold State.unregister
  split_ifs with hconn
  · show 0 ≤ s.connections - 1 ↔ _
    simp only [hconn, true_imp_iff]
    omega
  · exact iff_of_true hs fun hc => absurd hc hconn

/-- A step keeps the gauge from going below 0 exactly if it is covered. -/
theorem nonneg_step_iff {e : Event κ} (h : Inv s) (hs : 0 ≤ s.connections)
    (hstep : step s e = some t) : 0 ≤ t.connections ↔ Covered s e := by
  obtain ⟨conn, rfl, -, rfl⟩ | ⟨conn, rfl, -, rfl⟩ | ⟨b, dead, rfl, -, rfl⟩ |
    ⟨b, conn, rest, rfl, hdead, rfl⟩ | ⟨conn, rfl, hconn, rfl⟩ := step_cases hstep
  · exact iff_of_true hs fun c hc => nomatch hc
  · refine iff_of_true ?_ fun c hc => nomatch hc
    show 0 ≤ s.connections + 1
    omega
  · exact iff_of_true hs fun c hc => nomatch hc
  · rw [nonneg_unregister (h.setDead b rest) hs]
    unfold Covered State.unregisters
    simp [hdead, State.inFlight]
  · have hflight : conn ∉ s.inFlight := by simp [mem_inFlight h, hconn]
    rw [nonneg_unregister (h.setReturned hconn) hs, inFlight_setHandler (by decide),
      Finset.erase_eq_of_notMem hflight]
    unfold Covered State.unregisters
    simp [State.setHandler]

theorem inFlight_unregister : (s.unregister conn).inFlight = s.inFlight := by
  unfold State.unregister
  split_ifs <;> rfl

theorem subset_unregister (h : s.inFlight ⊆ s.clients) (hconn : conn ∉ s.inFlight) :
    (s.unregister conn).inFlight ⊆ (s.unregister conn).clients := by
  rw [inFlight_unregister]
  unfold State.unregister
  split_ifs
  · exact fun c hc => Finset.mem_erase.mpr ⟨fun he => hconn (he ▸ hc), h hc⟩
  · exact h

/-- Registrations in flight stay in the map while only settled connections leave it. -/
theorem subset_step {e : Event κ} (h : s.inFlight ⊆ s.clients) (hsettled : Settled s e)
    (hstep : step s e = some t) : t.inFlight ⊆ t.clients := by
  obtain ⟨conn, rfl, -, rfl⟩ | ⟨conn, rfl, -, rfl⟩ | ⟨b, dead, rfl, -, rfl⟩ |
    ⟨b, conn, rest, rfl, hdead, rfl⟩ | ⟨conn, rfl, -, rfl⟩ := step_cases hstep
  · rw [inFlight_insertClient]
    exact Finset.insert_subset_insert conn h
  · have herase : (s.setHandler conn .serving).increment.inFlight = s.inFlight.erase conn :=
      inFlight_setHandler (by decide)
    rw [herase]
    exact (Finset.erase_subset conn _).trans h
  · exact h
  · exact subset_unregister h (hsettled conn (by simp [State.unregisters, hdead]))
  · refine subset_unregister ?_ ?_
    · rw [inFlight_setHandler (by decide)]
      exact (Finset.erase_subset conn _).trans h
    · rw [inFlight_setHandler (by decide)]
      exact Finset.notMem_erase conn _

end Step

/-! ## Runs -/

/-- In a run in which each connection is unregistered after its own increment only, a registration
in flight is of a client in the map. -/
theorem throughout_of_settled {es : List (Event κ)} (hsettled : Along step Settled initial es) :
    Throughout step PossibleCount (initial : State κ) es := by
  have hstep : ∀ (s : State κ) e t, Inv s ∧ s.inFlight ⊆ s.clients → Settled s e →
      step s e = some t → Inv t ∧ t.inFlight ⊆ t.clients :=
    fun s e t h hset hstep => ⟨h.1.step hstep, subset_step h.2 hset hstep⟩
  have hinit : Inv (initial : State κ) ∧ initial.inFlight ⊆ (initial : State κ).clients :=
    ⟨inv_initial, Finset.Subset.refl _⟩
  refine (throughout_of_along hstep hinit hsettled).imp ?_
  rintro s ⟨h, hsub⟩
  have hcard := Finset.card_le_card hsub
  have hgauge := h.gauge
  refine h.possibleCount_iff.mpr ?_
  omega

/-- A broadcaster unregisters a connection between the two steps of its registration. -/
def earlyUnregister (conn : κ) : List (Event κ) :=
  [.insert conn, .broadcast .streamRedisEvents [conn], .unregisterDead .streamRedisEvents]

theorem earlyUnregister_negative (conn : κ) :
    ∃ s, run step initial (earlyUnregister conn) = some s ∧ s.connections = -1 := by
  simp [earlyUnregister, run, step, initial, State.setHandler, State.insertClient,
    State.unregister]

/-- **The gauge.** It is a possible count in every state that some interleaving reaches if and only
if there are no clients. In a single run it is so throughout if and only if each connection is
counted down while there are more clients than registrations in flight, and in particular if each is
unregistered after its own increment only. -/
theorem gauge_iff (κ : Type*) [DecidableEq κ] :
    ((∀ s : State κ, Reachable step initial s → PossibleCount s) ↔ IsEmpty κ) ∧
      ∀ es (s : State κ), run step initial es = some s →
        (Throughout step PossibleCount (initial : State κ) es ↔ Along step Covered initial es) ∧
        (Along step Settled initial es → Throughout step PossibleCount (initial : State κ) es) := by
  have hinv : ∀ (s : State κ) e t, Inv s → step s e = some t → Inv t := fun s e t h => h.step
  refine ⟨⟨fun hall => ⟨fun conn => ?_⟩, fun hempty s hs => ?_⟩,
    fun es s hs => ⟨?_, throughout_of_settled⟩⟩
  · obtain ⟨s, hs, hneg⟩ := earlyUnregister_negative conn
    have hnonneg := (hall s ⟨_, hs⟩).nonneg
    omega
  · have h := hs.invariant inv_initial hinv
    refine h.possibleCount_iff.mpr ?_
    have hgauge := h.gauge
    rw [Finset.eq_empty_of_isEmpty s.inFlight, Finset.card_empty] at hgauge
    omega
  · have hcongr : ∀ s : State κ, Inv s → (PossibleCount s ↔ Inv s ∧ 0 ≤ s.connections) :=
      fun s h => h.possibleCount_iff.trans (and_iff_right h).symm
    rw [throughout_congr hinv hcongr inv_initial]
    -- Within the invariant the sign of the gauge is all that a step can change.
    apply throughout_iff_along _ ⟨inv_initial, le_rfl⟩ hs
    rintro s e t ⟨h, hnonneg⟩ hstep
    exact (and_iff_right (h.step hstep)).trans (nonneg_step_iff h hnonneg hstep)

/-- Two clients come, a broadcaster unregisters the first for a write that failed, and both
handlers return. -/
def comeAndGo : List (Event ℕ) :=
  [.insert 0, .increment 0, .insert 1, .increment 1, .broadcast .streamRedisEvents [0],
    .unregisterDead .streamRedisEvents, .unregisterOld 0, .unregisterOld 1]

theorem gauge_iff_comeAndGo :
    Throughout step PossibleCount initial comeAndGo ∧ Along step Covered initial comeAndGo := by
  have hrun := (gauge_iff ℕ).2 comeAndGo _ rfl
  have hcount := hrun.2 (by decide)
  exact ⟨hcount, hrun.1.mp hcount⟩

/-- One client, whose connection fails before the increment. -/
theorem gauge_below_zero :
    ∃ s : State ℕ, Reachable step initial s ∧ s.connections = -1 ∧ ¬ PossibleCount s := by
  obtain ⟨s, hs, hneg⟩ := earlyUnregister_negative 0
  refine ⟨s, ⟨_, hs⟩, hneg, fun h => ?_⟩
  have hnonneg := h.nonneg
  omega

end PortfolioEngine.Connections
