import Mathlib.Data.Finset.Basic
import PortfolioEngine.Lib.Runs

/-!
# The writers of a WebSocket

`streamRedisEvents` and `streamPortfolioSnapshots` broadcast to the registered connections under a
read lock. The handler of a connection registers it and then writes to it once, without the lock.
A state is the lock, the registered connections and where each goroutine is; an event is one step
of one goroutine. A goroutine may take the lock whenever it is free for it: that a pending `Lock`
holds up new readers would only leave out interleavings.

`write_exclusion_iff`: with any client there are interleavings in which two goroutines write on one
connection, and a run has no such state exactly if each write begins on a clear connection. Two gaps
of the locking let it happen: the read lock admits both broadcasters, and the first write of a
handler takes no lock. A run that keeps to both locks has no such state.
-/

namespace PortfolioEngine.WriteExclusion

open Runs

variable {κ : Type*}

/-! ## The lock -/

/-- `sync.RWMutex`. -/
structure RWMutex where
  readers : ℕ
  writer : Bool
  deriving DecidableEq

namespace RWMutex

def rLock (m : RWMutex) : Option RWMutex :=
  if m.writer then none else some { m with readers := m.readers + 1 }

def rUnlock (m : RWMutex) : RWMutex := { m with readers := m.readers - 1 }

def lock (m : RWMutex) : Option RWMutex :=
  if m.writer ∨ m.readers ≠ 0 then none else some { m with writer := true }

def unlock (m : RWMutex) : RWMutex := { m with writer := false }

end RWMutex

/-! ## The goroutines -/

/-- The goroutines that call `broadcast`. -/
inductive Broadcaster where
  | streamRedisEvents
  | streamPortfolioSnapshots
  deriving DecidableEq

/-- Where a broadcaster is. -/
inductive BroadcastPhase (κ : Type*) where
  /-- Without the lock, with the dead connections that it has still to unregister. -/
  | outside (dead : List κ)
  /-- In `unregisterClient`, with the lock. -/
  | unregistering (conn : κ) (dead : List κ)
  /-- With the read lock, between two writes, with the connections that it has not ranged over. -/
  | ranging (left : Finset κ) (dead : List κ)
  /-- With the read lock, in `WriteJSON` on `conn`. -/
  | writing (conn : κ) (left : Finset κ) (dead : List κ)

/-- Where `handleLiveWS` is. -/
inductive HandlerPhase where
  /-- The client has not connected. -/
  | absent
  /-- In `registerClient`, with the lock. -/
  | registering
  /-- Before the initial `WriteJSON`. -/
  | registered
  /-- In the initial `WriteJSON`. -/
  | writing
  /-- In the loop of the pings. -/
  | serving
  /-- In the deferred `unregisterClient`, with the lock. -/
  | unregistering
  | returned
  deriving DecidableEq

/-- A goroutine that writes to connections. -/
inductive Goroutine (κ : Type*) where
  | broadcaster (b : Broadcaster)
  | handler (conn : κ)

structure State (κ : Type*) where
  clientsMu : RWMutex
  clients : Finset κ
  broadcast : Broadcaster → BroadcastPhase κ
  handler : κ → HandlerPhase

/-- No client has connected. -/
def initial : State κ := ⟨⟨0, false⟩, ∅, fun _ => .outside [], fun _ => .absent⟩

/-! ## The steps -/

/-- One step of one goroutine. -/
inductive Event (κ : Type*) where
  /-- `broadcast`: `RLock`, and the loop starts. -/
  | rLock (b : Broadcaster)
  | beginWrite (b : Broadcaster) (conn : κ)
  /-- `WriteJSON` returns, with an error or without one. -/
  | endWrite (b : Broadcaster) (err : Bool)
  /-- The loop ends, and `RUnlock`. -/
  | rUnlock (b : Broadcaster)
  /-- `unregisterClient` of the next dead connection: `Lock`. -/
  | lockDead (b : Broadcaster)
  /-- `delete` and `Unlock`. -/
  | unlockDead (b : Broadcaster)
  /-- `registerClient`: `Lock`. -/
  | lockNew (conn : κ)
  /-- The connection is added, and `Unlock`. -/
  | unlockNew (conn : κ)
  | beginFirst (conn : κ)
  | endFirst (conn : κ)
  /-- There is no portfolio for an initial write. -/
  | skipFirst (conn : κ)
  /-- The handler leaves its loop, and the deferred `unregisterClient`: `Lock`. -/
  | lockOld (conn : κ)
  /-- `delete` and `Unlock`. -/
  | unlockOld (conn : κ)

section Step

variable [DecidableEq κ]

def State.setBroadcast (s : State κ) (b : Broadcaster) (phase : BroadcastPhase κ) : State κ :=
  { s with broadcast := Function.update s.broadcast b phase }

def State.setHandler (s : State κ) (conn : κ) (phase : HandlerPhase) : State κ :=
  { s with handler := Function.update s.handler conn phase }

/-- The handler of `conn` goes from one phase to another. -/
def State.move (s : State κ) (conn : κ) (source target : HandlerPhase) : Option (State κ) :=
  if s.handler conn = source then some (s.setHandler conn target) else none

/-- The state after an event, which happens only where its goroutine has come to it. -/
def step (s : State κ) : Event κ → Option (State κ)
  | .rLock b =>
    match s.broadcast b with
    | .outside [] => s.clientsMu.rLock.map fun m =>
        { s.setBroadcast b (.ranging s.clients []) with clientsMu := m }
    | _ => none
  | .beginWrite b conn =>
    match s.broadcast b with
    | .ranging left dead =>
      if conn ∈ left then some (s.setBroadcast b (.writing conn (left.erase conn) dead)) else none
    | _ => none
  | .endWrite b err =>
    match s.broadcast b with
    | .writing conn left dead =>
      some (s.setBroadcast b (.ranging left (if err then dead ++ [conn] else dead)))
    | _ => none
  | .rUnlock b =>
    match s.broadcast b with
    | .ranging left dead =>
      if left = ∅ then
        some { s.setBroadcast b (.outside dead) with clientsMu := s.clientsMu.rUnlock }
      else none
    | _ => none
  | .lockDead b =>
    match s.broadcast b with
    | .outside (conn :: dead) => s.clientsMu.lock.map fun m =>
        { s.setBroadcast b (.unregistering conn dead) with clientsMu := m }
    | _ => none
  | .unlockDead b =>
    match s.broadcast b with
    | .unregistering conn dead =>
      some { s.setBroadcast b (.outside dead) with
        clients := s.clients.erase conn
        clientsMu := s.clientsMu.unlock }
    | _ => none
  | .lockNew conn => s.clientsMu.lock.bind fun m =>
      { s with clientsMu := m }.move conn .absent .registering
  | .unlockNew conn =>
    { s with
      clients := insert conn s.clients
      clientsMu := s.clientsMu.unlock }.move conn .registering .registered
  | .beginFirst conn => s.move conn .registered .writing
  | .endFirst conn => s.move conn .writing .serving
  | .skipFirst conn => s.move conn .registered .serving
  | .lockOld conn => s.clientsMu.lock.bind fun m =>
      { s with clientsMu := m }.move conn .serving .unregistering
  | .unlockOld conn =>
    { s with
      clients := s.clients.erase conn
      clientsMu := s.clientsMu.unlock }.move conn .unregistering .returned

/-! ## Writing -/

def BroadcastPhase.writingOn : BroadcastPhase κ → Option κ
  | .writing conn _ _ => some conn
  | _ => none

/-- The connection on which a goroutine is between the begin and the end of a `WriteJSON`. -/
def State.writingOn (s : State κ) : Goroutine κ → Option κ
  | .broadcaster b => (s.broadcast b).writingOn
  | .handler conn => if s.handler conn = .writing then some conn else none

/-- At most one goroutine is writing on each connection. -/
def Exclusive (s : State κ) : Prop :=
  ∀ conn g g', s.writingOn g = some conn → s.writingOn g' = some conn → g = g'

/-- The goroutine that takes the step. -/
def Event.goroutine : Event κ → Goroutine κ
  | .rLock b => .broadcaster b
  | .beginWrite b _ => .broadcaster b
  | .endWrite b _ => .broadcaster b
  | .rUnlock b => .broadcaster b
  | .lockDead b => .broadcaster b
  | .unlockDead b => .broadcaster b
  | .lockNew conn => .handler conn
  | .unlockNew conn => .handler conn
  | .beginFirst conn => .handler conn
  | .endFirst conn => .handler conn
  | .skipFirst conn => .handler conn
  | .lockOld conn => .handler conn
  | .unlockOld conn => .handler conn

/-- The connection on which the step begins a `WriteJSON`. -/
def Event.begins : Event κ → Option κ
  | .beginWrite _ conn => some conn
  | .beginFirst conn => some conn
  | _ => none

/-- If the step begins a `WriteJSON`, no goroutine is writing on that connection. -/
def Clear (s : State κ) (e : Event κ) : Prop :=
  ∀ conn ∈ e.begins, ∀ g, s.writingOn g ≠ some conn

/-- The step respects two locks that the code does not have: `broadcast` takes `clientsMu` alone
and not as one of several readers, and no `broadcast` ranges over the clients during the first
write of a handler. -/
def Guarded (s : State κ) : Event κ → Prop
  | .rLock _ => s.clientsMu.readers = 0 ∧ ∀ conn, s.handler conn ≠ .writing
  | .beginFirst _ => s.clientsMu.readers = 0
  | _ => True

/-! ## What a step does -/

theorem eq_of_move {s t : State κ} {conn : κ} {source target : HandlerPhase}
    (h : s.move conn source target = some t) :
    s.handler conn = source ∧ t = s.setHandler conn target := by
  unfold State.move at h
  split_ifs at h with hphase
  cases h
  exact ⟨hphase, rfl⟩

/-- From which state an event leads to which. -/
inductive Steps (s : State κ) : Event κ → State κ → Prop
  | rLock (b : Broadcaster) (m : RWMutex) (phase : s.broadcast b = .outside [])
      (lock : s.clientsMu.rLock = some m) :
      Steps s (.rLock b) { s.setBroadcast b (.ranging s.clients []) with clientsMu := m }
  | beginWrite (b : Broadcaster) (conn : κ) (left : Finset κ) (dead : List κ)
      (phase : s.broadcast b = .ranging left dead) (mem : conn ∈ left) :
      Steps s (.beginWrite b conn) (s.setBroadcast b (.writing conn (left.erase conn) dead))
  | endWrite (b : Broadcaster) (err : Bool) (conn : κ) (left : Finset κ) (dead : List κ)
      (phase : s.broadcast b = .writing conn left dead) :
      Steps s (.endWrite b err)
        (s.setBroadcast b (.ranging left (if err then dead ++ [conn] else dead)))
  | rUnlock (b : Broadcaster) (dead : List κ) (phase : s.broadcast b = .ranging ∅ dead) :
      Steps s (.rUnlock b)
        { s.setBroadcast b (.outside dead) with clientsMu := s.clientsMu.rUnlock }
  | lockDead (b : Broadcaster) (conn : κ) (dead : List κ) (m : RWMutex)
      (phase : s.broadcast b = .outside (conn :: dead)) (lock : s.clientsMu.lock = some m) :
      Steps s (.lockDead b) { s.setBroadcast b (.unregistering conn dead) with clientsMu := m }
  | unlockDead (b : Broadcaster) (conn : κ) (dead : List κ)
      (phase : s.broadcast b = .unregistering conn dead) :
      Steps s (.unlockDead b)
        { s.setBroadcast b (.outside dead) with
          clients := s.clients.erase conn
          clientsMu := s.clientsMu.unlock }
  | lockNew (conn : κ) (m : RWMutex) (phase : s.handler conn = .absent)
      (lock : s.clientsMu.lock = some m) :
      Steps s (.lockNew conn) { s.setHandler conn .registering with clientsMu := m }
  | unlockNew (conn : κ) (phase : s.handler conn = .registering) :
      Steps s (.unlockNew conn)
        { s.setHandler conn .registered with
          clients := insert conn s.clients
          clientsMu := s.clientsMu.unlock }
  | beginFirst (conn : κ) (phase : s.handler conn = .registered) :
      Steps s (.beginFirst conn) (s.setHandler conn .writing)
  | endFirst (conn : κ) (phase : s.handler conn = .writing) :
      Steps s (.endFirst conn) (s.setHandler conn .serving)
  | skipFirst (conn : κ) (phase : s.handler conn = .registered) :
      Steps s (.skipFirst conn) (s.setHandler conn .serving)
  | lockOld (conn : κ) (m : RWMutex) (phase : s.handler conn = .serving)
      (lock : s.clientsMu.lock = some m) :
      Steps s (.lockOld conn) { s.setHandler conn .unregistering with clientsMu := m }
  | unlockOld (conn : κ) (phase : s.handler conn = .unregistering) :
      Steps s (.unlockOld conn)
        { s.setHandler conn .returned with
          clients := s.clients.erase conn
          clientsMu := s.clientsMu.unlock }

theorem steps_of_step {s t : State κ} {e : Event κ} (h : step s e = some t) : Steps s e t := by
  cases e with
  | rLock b =>
    simp only [step] at h
    split at h
    · obtain ⟨m, hm, rfl⟩ := Option.map_eq_some_iff.mp h
      exact .rLock b m ‹_› hm
    · cases h
  | beginWrite b conn =>
    simp only [step] at h
    split at h
    · split_ifs at h with hmem
      cases h
      exact .beginWrite b conn _ _ ‹_› hmem
    · cases h
  | endWrite b err =>
    simp only [step] at h
    split at h
    · cases h
      exact .endWrite b err _ _ _ ‹_›
    · cases h
  | rUnlock b =>
    simp only [step] at h
    split at h
    · split_ifs at h with hleft
      subst hleft
      cases h
      exact .rUnlock b _ ‹_›
    · cases h
  | lockDead b =>
    simp only [step] at h
    split at h
    · obtain ⟨m, hm, rfl⟩ := Option.map_eq_some_iff.mp h
      exact .lockDead b _ _ m ‹_› hm
    · cases h
  | unlockDead b =>
    simp only [step] at h
    split at h
    · cases h
      exact .unlockDead b _ _ ‹_›
    · cases h
  | lockNew conn =>
    obtain ⟨m, hm, hmove⟩ := Option.bind_eq_some_iff.mp h
    obtain ⟨hphase, rfl⟩ := eq_of_move hmove
    exact .lockNew conn m hphase hm
  | unlockNew conn =>
    obtain ⟨hphase, rfl⟩ := eq_of_move h
    exact .unlockNew conn hphase
  | beginFirst conn =>
    obtain ⟨hphase, rfl⟩ := eq_of_move h
    exact .beginFirst conn hphase
  | endFirst conn =>
    obtain ⟨hphase, rfl⟩ := eq_of_move h
    exact .endFirst conn hphase
  | skipFirst conn =>
    obtain ⟨hphase, rfl⟩ := eq_of_move h
    exact .skipFirst conn hphase
  | lockOld conn =>
    obtain ⟨m, hm, hmove⟩ := Option.bind_eq_some_iff.mp h
    obtain ⟨hphase, rfl⟩ := eq_of_move hmove
    exact .lockOld conn m hphase hm
  | unlockOld conn =>
    obtain ⟨hphase, rfl⟩ := eq_of_move h
    exact .unlockOld conn hphase

/-- From `s` to `t` the goroutine `g` comes to write on `conn`, and no other one moves. -/
structure Moves (s t : State κ) (g : Goroutine κ) (conn : Option κ) : Prop where
  self : t.writingOn g = conn
  other : ∀ g', g' ≠ g → t.writingOn g' = s.writingOn g'

section Writing

variable {s t : State κ} {e : Event κ}

omit [DecidableEq κ] in
theorem moves_broadcaster {b : Broadcaster} (phase : BroadcastPhase κ)
    (hb : t.broadcast = Function.update s.broadcast b phase) (hh : t.handler = s.handler) :
    Moves s t (.broadcaster b) phase.writingOn := by
  constructor
  · unfold State.writingOn
    dsimp only
    rw [hb, Function.update_self]
  · intro g hg
    unfold State.writingOn
    cases g with
    | broadcaster b' =>
      have hne : b' ≠ b := fun h => hg (congrArg _ h)
      dsimp only
      rw [hb, Function.update_of_ne hne]
    | handler conn =>
      dsimp only
      rw [hh]

theorem moves_handler {conn : κ} (target : HandlerPhase)
    (hh : t.handler = Function.update s.handler conn target) (hb : t.broadcast = s.broadcast) :
    Moves s t (.handler conn) (if target = .writing then some conn else none) := by
  constructor
  · unfold State.writingOn
    dsimp only
    rw [hh, Function.update_self]
  · intro g hg
    unfold State.writingOn
    cases g with
    | broadcaster b =>
      dsimp only
      rw [hb]
    | handler conn' =>
      have hne : conn' ≠ conn := fun h => hg (congrArg _ h)
      dsimp only
      rw [hh, Function.update_of_ne hne]

/-- After its step a goroutine is writing exactly if the step begins a `WriteJSON`. -/
theorem step_moves (h : step s e = some t) : Moves s t e.goroutine e.begins := by
  cases steps_of_step h with
  | rLock b => exact moves_broadcaster (.ranging s.clients []) rfl rfl
  | beginWrite b conn left dead => exact moves_broadcaster (.writing conn _ dead) rfl rfl
  | endWrite b err conn left dead => exact moves_broadcaster (.ranging left _) rfl rfl
  | rUnlock b dead => exact moves_broadcaster (.outside dead) rfl rfl
  | lockDead b conn dead => exact moves_broadcaster (.unregistering conn dead) rfl rfl
  | unlockDead b conn dead => exact moves_broadcaster (.outside dead) rfl rfl
  | lockNew => exact moves_handler .registering rfl rfl
  | unlockNew => exact moves_handler .registered rfl rfl
  | beginFirst => exact moves_handler .writing rfl rfl
  | endFirst => exact moves_handler .serving rfl rfl
  | skipFirst => exact moves_handler .serving rfl rfl
  | lockOld => exact moves_handler .unregistering rfl rfl
  | unlockOld => exact moves_handler .returned rfl rfl

theorem not_writing_of_begins (h : step s e = some t) {conn : κ} (hc : conn ∈ e.begins) :
    s.writingOn e.goroutine = none := by
  cases steps_of_step h with
  | beginWrite b conn left dead hphase =>
    simp only [Event.goroutine, State.writingOn, hphase, BroadcastPhase.writingOn]
  | beginFirst conn hphase => simp [Event.goroutine, State.writingOn, hphase]
  | _ => cases hc

/-- A step keeps the writers apart exactly if it finds its connection clear. -/
theorem exclusive_step (hs : Exclusive s) (h : step s e = some t) :
    Exclusive t ↔ Clear s e := by
  obtain ⟨hself, hother⟩ := step_moves h
  constructor
  · intro ht conn hc g hg
    have hne : g ≠ e.goroutine := by
      rintro rfl
      rw [not_writing_of_begins h hc] at hg
      cases hg
    exact hne (ht conn g e.goroutine ((hother g hne).trans hg) (hself.trans hc))
  · intro hclear conn g g' hg hg'
    have hbusy : ∀ x, t.writingOn x = some conn → x ≠ e.goroutine → s.writingOn x = some conn :=
      fun x hx hne => (hother x hne).symm.trans hx
    by_cases he : g = e.goroutine
    · subst he
      by_contra hne
      exact hclear conn (hself.symm.trans hg) g' (hbusy g' hg' (Ne.symm hne))
    · by_cases he' : g' = e.goroutine
      · subst he'
        exact absurd (hbusy g hg he) (hclear conn (hself.symm.trans hg') g)
      · exact hs conn g g' (hbusy g hg he) (hbusy g' hg' he')

end Writing

/-! ## The two locks -/

/-- The read locks that a broadcaster holds. -/
def BroadcastPhase.readLocks : BroadcastPhase κ → ℕ
  | .outside _ => 0
  | .unregistering _ _ => 0
  | .ranging _ _ => 1
  | .writing _ _ _ => 1

def State.readLocks (s : State κ) : ℕ :=
  (s.broadcast .streamRedisEvents).readLocks + (s.broadcast .streamPortfolioSnapshots).readLocks

/-- At most one broadcaster holds the read lock, and none does during a first write. -/
structure Apart (s : State κ) : Prop where
  readers : s.clientsMu.readers = s.readLocks
  single : s.readLocks ≤ 1
  first : ∀ conn, s.handler conn = .writing → s.readLocks = 0

omit [DecidableEq κ] in
theorem apart_initial : Apart (initial : State κ) := by
  refine ⟨rfl, Nat.zero_le 1, fun conn hconn => ?_⟩
  cases hconn

omit [DecidableEq κ] in
theorem readLocks_of_writingOn {phase : BroadcastPhase κ} {conn : κ}
    (h : phase.writingOn = some conn) : phase.readLocks = 1 := by
  cases phase <;> first | rfl | cases h

omit [DecidableEq κ] in
theorem Apart.exclusive {s : State κ} (h : Apart s) : Exclusive s := by
  have hsingle := h.single
  have hlocks : ∀ b conn, s.writingOn (.broadcaster b) = some conn →
      (s.broadcast b).readLocks = 1 ∧ s.readLocks ≠ 0 := by
    intro b conn hb
    have hone := readLocks_of_writingOn hb
    unfold State.readLocks
    cases b <;> omega
  have hhandler : ∀ conn' conn, s.writingOn (.handler conn') = some conn →
      conn' = conn ∧ s.readLocks = 0 := by
    intro conn' conn hconn
    unfold State.writingOn at hconn
    dsimp only at hconn
    split_ifs at hconn with hphase
    exact ⟨Option.some.inj hconn, h.first conn' hphase⟩
  intro conn g g' hg hg'
  cases g with
  | broadcaster b =>
    obtain ⟨hb, hlocked⟩ := hlocks b conn hg
    cases g' with
    | broadcaster b' =>
      have hb' := (hlocks b' conn hg').1
      unfold State.readLocks at hsingle
      cases b <;> cases b' <;> first | rfl | omega
    | handler conn' => exact absurd (hhandler conn' conn hg').2 hlocked
  | handler conn₁ =>
    obtain ⟨rfl, hfree⟩ := hhandler conn₁ conn hg
    cases g' with
    | broadcaster b => exact absurd hfree (hlocks b _ hg').2
    | handler conn₂ => rw [(hhandler conn₂ _ hg').1]

section Locks

variable {s t : State κ} {e : Event κ}

omit [DecidableEq κ] in
theorem readLocks_setBroadcast (b : Broadcaster) (phase : BroadcastPhase κ) :
    (s.setBroadcast b phase).readLocks + (s.broadcast b).readLocks =
      s.readLocks + phase.readLocks := by
  unfold State.readLocks State.setBroadcast
  cases b <;> simp <;> omega

omit [DecidableEq κ] in
/-- A broadcaster that takes or releases no read lock keeps `Apart`. -/
theorem Apart.setBroadcast (h : Apart s) {b : Broadcaster} {phase : BroadcastPhase κ}
    (hphase : phase.readLocks = (s.broadcast b).readLocks) {m : RWMutex}
    (hm : m.readers = s.clientsMu.readers) (clients : Finset κ) :
    Apart { s.setBroadcast b phase with clientsMu := m, clients := clients } := by
  have hlocks : (s.setBroadcast b phase).readLocks = s.readLocks := by
    have hset := readLocks_setBroadcast (s := s) b phase
    omega
  refine ⟨?_, ?_, fun conn hconn => ?_⟩
  · exact (hm.trans h.readers).trans hlocks.symm
  · exact hlocks.trans_le h.single
  · exact hlocks.trans (h.first conn hconn)

/-- A handler keeps `Apart` unless it begins its first write while a broadcaster has the lock. -/
theorem Apart.setHandler (h : Apart s) {conn : κ} {target : HandlerPhase} {m : RWMutex}
    (hm : m.readers = s.clientsMu.readers) (clients : Finset κ)
    (htarget : target = .writing → s.readLocks = 0) :
    Apart { s.setHandler conn target with clientsMu := m, clients := clients } := by
  refine ⟨hm.trans h.readers, h.single, fun conn' hconn' => ?_⟩
  by_cases hc : conn' = conn
  · subst hc
    refine htarget ?_
    have hself : Function.update s.handler conn' target conn' = .writing := hconn'
    rwa [Function.update_self] at hself
  · have hother : Function.update s.handler conn target conn' = .writing := hconn'
    rw [Function.update_of_ne hc] at hother
    exact h.first conn' hother

theorem readers_lock {m m' : RWMutex} (h : m.lock = some m') : m'.readers = m.readers := by
  unfold RWMutex.lock at h
  split_ifs at h
  obtain rfl := Option.some.inj h
  rfl

theorem readers_rLock {m m' : RWMutex} (h : m.rLock = some m') : m'.readers = m.readers + 1 := by
  unfold RWMutex.rLock at h
  split_ifs at h
  obtain rfl := Option.some.inj h
  rfl

/-- Guarded steps keep the broadcasters and the first writes apart. -/
theorem Apart.step (h : Apart s) (hguarded : Guarded s e) (hstep : step s e = some t) :
    Apart t := by
  have hreaders := h.readers
  have hunlock : s.clientsMu.unlock.readers = s.clientsMu.readers := rfl
  cases steps_of_step hstep with
  | rLock b m hphase hm =>
    obtain ⟨hzero, hfirst⟩ := hguarded
    have hset := readLocks_setBroadcast (s := s) b (.ranging s.clients [])
    rw [hphase] at hset
    have hone : (s.setBroadcast b (.ranging s.clients [])).readLocks = 1 := by
      simp only [BroadcastPhase.readLocks] at hset
      omega
    refine ⟨?_, hone.le, fun conn hconn => absurd hconn (hfirst conn)⟩
    exact ((readers_rLock hm).trans (by rw [hzero])).trans hone.symm
  | beginWrite b conn left dead hphase =>
    exact h.setBroadcast (by rw [hphase]; rfl) rfl s.clients
  | endWrite b err conn left dead hphase =>
    exact h.setBroadcast (by rw [hphase]; rfl) rfl s.clients
  | rUnlock b dead hphase =>
    have hset := readLocks_setBroadcast (s := s) b (.outside dead)
    rw [hphase] at hset
    -- the only holder lets go, so a first write may begin again
    have hsingle := h.single
    simp only [BroadcastPhase.readLocks] at hset
    have hzero : (s.setBroadcast b (.outside dead)).readLocks = 0 := by omega
    refine ⟨?_, hzero.trans_le (Nat.zero_le 1), fun _ _ => hzero⟩
    show s.clientsMu.readers - 1 = (s.setBroadcast b (.outside dead)).readLocks
    omega
  | lockDead b conn dead m hphase hm =>
    exact h.setBroadcast (by rw [hphase]; rfl) (readers_lock hm) s.clients
  | unlockDead b conn dead hphase =>
    have hsame : (BroadcastPhase.outside dead).readLocks = (s.broadcast b).readLocks := by
      rw [hphase]
      rfl
    exact h.setBroadcast hsame hunlock (s.clients.erase conn)
  | lockNew conn m hphase hm => exact h.setHandler (readers_lock hm) s.clients nofun
  | unlockNew conn => exact h.setHandler hunlock (insert conn s.clients) nofun
  | beginFirst conn =>
    -- the first write takes no lock: only the guard keeps it away from the loops
    have hfree : s.clientsMu.readers = 0 := hguarded
    exact h.setHandler rfl s.clients fun _ => hreaders.symm.trans hfree
  | endFirst conn => exact h.setHandler rfl s.clients nofun
  | skipFirst conn => exact h.setHandler rfl s.clients nofun
  | lockOld conn m hphase hm => exact h.setHandler (readers_lock hm) s.clients nofun
  | unlockOld conn => exact h.setHandler hunlock (s.clients.erase conn) nofun

end Locks

/-! ## Runs -/

omit [DecidableEq κ] in
theorem exclusive_initial : Exclusive (initial : State κ) := by
  intro conn g g' hg
  cases g with
  | broadcaster b => cases hg
  | handler conn' => cases hg

/-- A client connects, and both broadcasters range over the clients at once. -/
def bothBroadcast (conn : κ) : List (Event κ) :=
  [.lockNew conn, .unlockNew conn, .rLock .streamRedisEvents, .rLock .streamPortfolioSnapshots,
    .beginWrite .streamRedisEvents conn, .beginWrite .streamPortfolioSnapshots conn]

/-- A client connects, and a broadcaster ranges over the clients before its initial write ends. -/
def broadcastToNew (conn : κ) : List (Event κ) :=
  [.lockNew conn, .unlockNew conn, .beginFirst conn, .rLock .streamRedisEvents,
    .beginWrite .streamRedisEvents conn]

theorem bothBroadcast_overlap (conn : κ) :
    ∃ s, run step initial (bothBroadcast conn) = some s ∧
      s.writingOn (.broadcaster .streamRedisEvents) = some conn ∧
      s.writingOn (.broadcaster .streamPortfolioSnapshots) = some conn := by
  simp [bothBroadcast, run, step, initial, RWMutex.lock, RWMutex.unlock, RWMutex.rLock, State.move,
    State.setHandler, State.setBroadcast, State.writingOn, BroadcastPhase.writingOn]

theorem broadcastToNew_overlap (conn : κ) :
    ∃ s, run step initial (broadcastToNew conn) = some s ∧
      s.writingOn (.broadcaster .streamRedisEvents) = some conn ∧
      s.writingOn (.handler conn) = some conn := by
  simp [broadcastToNew, run, step, initial, RWMutex.lock, RWMutex.unlock, RWMutex.rLock,
    State.move, State.setHandler, State.setBroadcast, State.writingOn, BroadcastPhase.writingOn]

end Step

/-- **Writers overlap.** At most one goroutine is writing on each connection in every state that
some interleaving reaches if and only if there are no clients. In a single run it is so throughout
if and only if each `WriteJSON` begins on a connection on which no goroutine is writing. It is so in
each run in which the broadcasters exclude each other and the first writes. -/
theorem write_exclusion_iff (κ : Type*) [DecidableEq κ] :
    ((∀ s : State κ, Reachable step initial s → Exclusive s) ↔ IsEmpty κ) ∧
      ∀ es (s : State κ), run step initial es = some s →
        (Throughout step Exclusive (initial : State κ) es ↔ Along step Clear initial es) ∧
        (Along step Guarded initial es → Throughout step Exclusive (initial : State κ) es) := by
  refine ⟨⟨fun hall => ⟨fun conn => ?_⟩, fun hempty s _ conn => hempty.elim conn⟩,
    fun es s hs => ⟨?_, fun hguarded => ?_⟩⟩
  · obtain ⟨s, hs, hevents, hsnapshots⟩ := bothBroadcast_overlap conn
    cases hall s ⟨_, hs⟩ conn _ _ hevents hsnapshots
  · apply throughout_iff_along _ exclusive_initial hs
    intro s e t hs h
    exact exclusive_step hs h
  · have hstep : ∀ (s : State κ) e t, Apart s → Guarded s e → step s e = some t → Apart t :=
      fun s e t h => h.step
    exact (throughout_of_along hstep apart_initial hguarded).imp fun s h => h.exclusive

/-- A client connects, its first write ends, and then one broadcaster after the other writes. -/
def broadcastInTurn : List (Event ℕ) :=
  [.lockNew 0, .unlockNew 0, .beginFirst 0, .endFirst 0, .rLock .streamRedisEvents,
    .beginWrite .streamRedisEvents 0, .endWrite .streamRedisEvents false,
    .rUnlock .streamRedisEvents, .rLock .streamPortfolioSnapshots,
    .beginWrite .streamPortfolioSnapshots 0]

theorem broadcastInTurn_guarded : Along step Guarded initial broadcastInTurn := by
  simp [broadcastInTurn, Along, Guarded, step, initial, RWMutex.lock, RWMutex.unlock,
    RWMutex.rLock, RWMutex.rUnlock, State.move, State.setHandler, State.setBroadcast,
    Function.update_apply]
  -- The one handler is past its first write when the broadcasters take the lock.
  constructor <;> intro conn <;> by_cases hc : conn = 0 <;> simp [hc]

theorem write_exclusion_iff_inTurn :
    Throughout step Exclusive initial broadcastInTurn ∧
      Along step Clear initial broadcastInTurn := by
  have hrun := (write_exclusion_iff ℕ).2 broadcastInTurn _ rfl
  have hexclusive := hrun.2 broadcastInTurn_guarded
  exact ⟨hexclusive, hrun.1.mp hexclusive⟩

/-- Both broadcasters write on one connection, and so do a broadcaster and the handler. -/
theorem writers_overlap :
    (∃ s : State ℕ, run step initial (bothBroadcast 0) = some s ∧ ¬ Exclusive s) ∧
      (∃ s : State ℕ, run step initial (broadcastToNew 0) = some s ∧ ¬ Exclusive s) ∧
      ¬ ∀ s : State ℕ, Reachable step initial s → Exclusive s := by
  obtain ⟨s, hs, hevents, hsnapshots⟩ := bothBroadcast_overlap 0
  obtain ⟨s', hs', hevents', hhandler⟩ := broadcastToNew_overlap 0
  have hoverlap : ¬ Exclusive s := fun h => by cases h 0 _ _ hevents hsnapshots
  have hoverlap' : ¬ Exclusive s' := fun h => by cases h 0 _ _ hevents' hhandler
  exact ⟨⟨s, hs, hoverlap⟩, ⟨s', hs', hoverlap'⟩, fun hall => hoverlap (hall s ⟨_, hs⟩)⟩

end PortfolioEngine.WriteExclusion
