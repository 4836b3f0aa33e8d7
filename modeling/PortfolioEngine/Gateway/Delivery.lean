import Mathlib.Data.Finset.Card
import Mathlib.Data.Fintype.Basic
import Mathlib.Data.List.Chain
import PortfolioEngine.Gateway.WriteExclusion

/-!
# What a client receives

The broadcasts of a goroutine are numbered, with the clients that were registered when it took the
read lock and the writes that have ended. `delivered_once`: whatever the interleaving of the
goroutines, each client is written each broadcast that finds it registered, once and in order. The
numbers have no gap, an error is the last of them, and the map does not change under a loop that
ranges over it.
-/

namespace PortfolioEngine.WriteExclusion

open Runs

variable {κ : Type*}

/-! ## The lock -/

/-- The lock keeps the writers apart from one another and from the readers. -/
structure Guards {ω ρ : Type*} (m : RWMutex) (writers : Set ω) (readers : Finset ρ) : Prop where
  writer : m.writer = true ↔ writers.Nonempty
  alone : writers.Subsingleton
  readers : m.readers = readers.card
  apart : m.writer = true → m.readers = 0

namespace Guards

variable {ω ρ : Type*} {m m' : RWMutex} {W W' : Set ω} {R : Finset ρ}

theorem rLock [DecidableEq ρ] {r : ρ} (h : Guards m W R) (hm : m.rLock = some m') (hr : r ∉ R) :
    Guards m' W (insert r R) := by
  unfold RWMutex.rLock at hm
  split_ifs at hm with hw
  cases hm
  exact ⟨h.writer, h.alone, by rw [Finset.card_insert_of_notMem hr, h.readers],
    fun hc => absurd hc hw⟩

theorem rUnlock [DecidableEq ρ] {r : ρ} (h : Guards m W R) (hr : r ∈ R) :
    Guards m.rUnlock W (R.erase r) where
  writer := h.writer
  alone := h.alone
  readers := by
    rw [Finset.card_erase_of_mem hr, ← h.readers]
    rfl
  apart hc := by
    show m.readers - 1 = 0
    rw [h.apart hc]

theorem lock {g : ω} (h : Guards m W R) (hm : m.lock = some m') (hg : g ∈ W')
    (hother : ∀ g' ≠ g, g' ∈ W' → g' ∈ W) : Guards m' W' R := by
  unfold RWMutex.lock at hm
  split_ifs at hm with hw
  cases hm
  rw [not_or, not_not] at hw
  have hnone : ∀ g', g' ∉ W := fun g' hc => hw.1 (h.writer.mpr ⟨g', hc⟩)
  have honly : ∀ g' ∈ W', g' = g := fun g' hg' => by
    by_contra hne
    exact hnone g' (hother g' hne hg')
  exact ⟨iff_of_true rfl ⟨g, hg⟩, fun x hx y hy => (honly x hx).trans (honly y hy).symm,
    h.readers, fun _ => hw.2⟩

theorem unlock {g : ω} (h : Guards m W R) (hg : g ∈ W) (hg' : g ∉ W')
    (hother : ∀ g' ≠ g, g' ∈ W' → g' ∈ W) : Guards m.unlock W' R := by
  have hnone : ∀ g', g' ∉ W' := fun g' hc => by
    by_cases hne : g' = g
    · exact hg' (hne ▸ hc)
    · exact hne (h.alone (hother g' hne hc) hg)
  exact ⟨iff_of_false Bool.false_ne_true fun ⟨g', hc⟩ => hnone g' hc,
    fun x hx => absurd hx (hnone x), h.readers, fun hc => absurd hc Bool.false_ne_true⟩

theorem not_mem_readers {g : ω} (h : Guards m W R) (hg : g ∈ W) (r : ρ) : r ∉ R := by
  have hempty : R.card = 0 := by
    rw [← h.readers]
    exact h.apart (h.writer.mpr ⟨g, hg⟩)
  rw [Finset.card_eq_zero.mp hempty]
  exact Finset.notMem_empty r

end Guards

instance : Fintype Broadcaster :=
  ⟨{.streamRedisEvents, .streamPortfolioSnapshots}, fun b => by cases b <;> decide⟩

/-! ## The places of a broadcaster -/

namespace BroadcastPhase

/-- In `unregisterClient`, with the lock. -/
def Locked : BroadcastPhase κ → Prop
  | .unregistering _ _ => True
  | _ => False

/-- With the read lock. -/
def reading : BroadcastPhase κ → Bool
  | .ranging _ _ => true
  | .writing _ _ _ => true
  | _ => false

/-- The connections that the broadcast has still to be written to. -/
def pending [DecidableEq κ] : BroadcastPhase κ → Finset κ
  | .ranging left _ => left
  | .writing conn left _ => insert conn left
  | _ => ∅

/-- The connections on which a write has failed and that are not unregistered yet. -/
def failed : BroadcastPhase κ → List κ
  | .outside dead => dead
  | .unregistering conn dead => conn :: dead
  | .ranging _ dead => dead
  | .writing _ _ dead => dead

/-- The connection that is written to is not to be ranged over again. -/
def Fresh : BroadcastPhase κ → Prop
  | .writing conn left _ => conn ∉ left
  | _ => True

end BroadcastPhase

/-- In `registerClient` or `unregisterClient`, with the lock. -/
def HandlerPhase.Locked : HandlerPhase → Prop
  | .registering => True
  | .unregistering => True
  | _ => False

/-- The connection has been registered. -/
def HandlerPhase.born : HandlerPhase → Bool
  | .absent => false
  | .registering => false
  | _ => true

/-- The goroutines with the lock. -/
def State.writers (s : State κ) : Set (Goroutine κ) :=
  {g | match g with
    | .broadcaster b => (s.broadcast b).Locked
    | .handler conn => (s.handler conn).Locked}

/-- The goroutines with the read lock. -/
def State.readers (s : State κ) : Finset Broadcaster :=
  Finset.univ.filter fun b => (s.broadcast b).reading

/-! ## The log -/

/-- The state, and for each broadcaster the clients that each of its broadcasts found registered
and, connection by connection, the broadcasts whose write has ended, with its error. -/
structure Log (κ : Type*) where
  state : State κ
  audiences : Broadcaster → List (Finset κ)
  writes : Broadcaster → κ → List (ℕ × Bool)

def Log.start : Log κ := ⟨initial, fun _ => [], fun _ _ => []⟩

variable [DecidableEq κ]

/-- One step of one goroutine, and what it adds to the log. -/
def logStep (w : Log κ) (e : Event κ) : Option (Log κ) :=
  (step w.state e).map fun state =>
    match e with
    | .rLock b =>
      { w with
        state
        audiences := Function.update w.audiences b (w.audiences b ++ [w.state.clients]) }
    | .endWrite b err =>
      match w.state.broadcast b with
      | .writing conn _ _ =>
        { w with
          state
          writes := Function.update w.writes b (Function.update (w.writes b) conn
            (w.writes b conn ++ [((w.audiences b).length - 1, err)])) }
      | _ => { w with state }
    | _ => { w with state }

/-- The numbers of the broadcasts that find a connection registered. -/
def heard (audiences : List (Finset κ)) (conn : κ) : List ℕ :=
  (audiences.zipIdx.filter fun a => conn ∈ a.1).map Prod.snd

theorem heard_concat (audiences : List (Finset κ)) (clients : Finset κ) (conn : κ) :
    heard (audiences ++ [clients]) conn =
      heard audiences conn ++ if conn ∈ clients then [audiences.length] else [] := by
  unfold heard
  rw [List.zipIdx_append, List.filter_append, List.map_append]
  congr 1
  by_cases h : conn ∈ clients <;> simp [h]

/-! ## One broadcaster and one connection -/

/-- What concerns a broadcaster and a connection. -/
structure View (κ : Type*) where
  phase : BroadcastPhase κ
  clients : Finset κ
  born : Bool
  audiences : List (Finset κ)
  writes : List (ℕ × Bool)

def Log.view (w : Log κ) (b : Broadcaster) (conn : κ) : View κ :=
  ⟨w.state.broadcast b, w.state.clients, (w.state.handler conn).born, w.audiences b,
    w.writes b conn⟩

/-- The broadcast that is still to be written. -/
def View.due (v : View κ) (conn : κ) : List ℕ :=
  if conn ∈ v.phase.pending then [v.audiences.length - 1] else []

/-- What is written and what is still to be written are the broadcasts that found the connection
registered; their numbers are consecutive, and go up to the last one while it is registered. A write
that fails is the last one, and the connection is then unregistered before the next broadcast. -/
structure ViewInv (conn : κ) (v : View κ) : Prop where
  fresh : v.phase.Fresh
  written : v.writes.map Prod.fst ++ v.due conn = heard v.audiences conn
  consecutive : (heard v.audiences conn).IsChain fun i j => j = i + 1
  current : conn ∈ v.clients → ∀ i ∈ (heard v.audiences conn).getLast?, i + 1 = v.audiences.length
  unborn : v.born = false → conn ∉ v.clients ∧ heard v.audiences conn = []
  last : ∀ x ∈ v.writes.dropLast, x.2 = false
  fallen : (∃ x ∈ v.writes, x.2 = true) →
    conn ∉ v.phase.pending ∧ (conn ∈ v.phase.failed ∨ conn ∉ v.clients)

section View

variable {conn : κ} {v v' : View κ}

/-- The other goroutines take a connection out of the map, or bring others in. -/
theorem ViewInv.quiet (h : ViewInv conn v) (hphase : v'.phase = v.phase)
    (haudiences : v'.audiences = v.audiences) (hwrites : v'.writes = v.writes)
    (hclients : conn ∈ v'.clients → conn ∈ v.clients)
    (hborn : v'.born = false → v.born = false) : ViewInv conn v' := by
  have hdue : v'.due conn = v.due conn := by
    unfold View.due
    rw [hphase, haudiences]
  refine ⟨hphase ▸ h.fresh, ?_, haudiences ▸ h.consecutive, ?_, ?_, hwrites ▸ h.last, ?_⟩
  · rw [hwrites, hdue, haudiences]
    exact h.written
  · rw [haudiences]
    exact fun hmem => h.current (hclients hmem)
  · intro hnew
    obtain ⟨hnot, hheard⟩ := h.unborn (hborn hnew)
    rw [haudiences]
    exact ⟨fun hmem => hnot (hclients hmem), hheard⟩
  · rw [hwrites, hphase]
    intro hfailed
    obtain ⟨hpending, hdead⟩ := h.fallen hfailed
    exact ⟨hpending, hdead.imp_right fun hnot hmem => hnot (hclients hmem)⟩

theorem ViewInv.birth (h : ViewInv conn v) (hphase : v'.phase = v.phase)
    (haudiences : v'.audiences = v.audiences) (hwrites : v'.writes = v.writes)
    (hborn : v.born = false) (hborn' : v'.born = true) : ViewInv conn v' := by
  obtain ⟨_, hheard⟩ := h.unborn hborn
  have hempty : v.writes = [] := by
    have hwritten := h.written
    rw [hheard] at hwritten
    exact List.map_eq_nil_iff.mp (List.append_eq_nil_iff.mp hwritten).1
  have hdue : v'.due conn = v.due conn := by
    unfold View.due
    rw [hphase, haudiences]
  refine ⟨hphase ▸ h.fresh, ?_, haudiences ▸ h.consecutive, ?_, ?_, hwrites ▸ h.last, ?_⟩
  · rw [hwrites, hdue, haudiences]
    exact h.written
  · rw [haudiences, hheard]
    exact fun _ i hi => absurd hi (Option.not_mem_none i)
  · intro hnew
    rw [hborn'] at hnew
    cases hnew
  · rw [hwrites, hempty]
    rintro ⟨x, hx, _⟩
    exact absurd hx List.not_mem_nil

theorem ViewInv.rLock (h : ViewInv conn v) (hphase : v.phase = .outside []) :
    ViewInv conn { v with
      phase := .ranging v.clients []
      audiences := v.audiences ++ [v.clients] } := by
  have hwritten := h.written
  have hnone : v.due conn = [] := by
    unfold View.due
    rw [hphase]
    exact if_neg (Finset.notMem_empty conn)
  rw [hnone, List.append_nil] at hwritten
  refine ⟨trivial, ?_, ?_, ?_, ?_, h.last, ?_⟩
  · rw [heard_concat, ← hwritten]
    congr 1
    unfold View.due
    rw [List.length_append, List.length_singleton, Nat.add_sub_cancel]
    rfl
  · rw [heard_concat]
    split_ifs with hmem
    -- a client of the map has heard the last audience, so the next one is consecutive
    · refine List.isChain_append.mpr ⟨h.consecutive, List.isChain_singleton _, ?_⟩
      intro i hi j hj
      obtain rfl : v.audiences.length = j := by simpa using hj
      exact (h.current hmem i hi).symm
    · rw [List.append_nil]
      exact h.consecutive
  · intro hmem i hi
    rw [heard_concat, if_pos hmem, List.getLast?_concat] at hi
    rw [← Option.some.inj hi, List.length_append, List.length_singleton]
  · intro hborn
    obtain ⟨hnot, hheard⟩ := h.unborn hborn
    refine ⟨hnot, ?_⟩
    rw [heard_concat, if_neg hnot, List.append_nil]
    exact hheard
  · intro hfailed
    obtain ⟨_, hdead⟩ := h.fallen hfailed
    rw [hphase] at hdead
    -- whoever a write has failed for was dropped before the loop could begin again
    have hnot : conn ∉ v.clients := hdead.resolve_left List.not_mem_nil
    exact ⟨hnot, Or.inr hnot⟩

/-- A step that changes neither what is pending on the connection nor whether it has failed. -/
theorem ViewInv.rephase (h : ViewInv conn v) {phase : BroadcastPhase κ} (hfresh : phase.Fresh)
    (hpending : conn ∈ phase.pending ↔ conn ∈ v.phase.pending)
    (hfailed : conn ∈ v.phase.failed → conn ∈ phase.failed) :
    ViewInv conn { v with phase := phase } := by
  refine ⟨hfresh, ?_, h.consecutive, h.current, h.unborn, h.last, fun hx => ?_⟩
  · unfold View.due
    simp only [hpending]
    exact h.written
  · obtain ⟨hnot, hdead⟩ := h.fallen hx
    exact ⟨fun hmem => hnot (hpending.mp hmem), hdead.imp_left hfailed⟩

theorem ViewInv.beginWrite (h : ViewInv conn v) {left : Finset κ} {dead : List κ} {c : κ}
    (hphase : v.phase = .ranging left dead) (hc : c ∈ left) :
    ViewInv conn { v with phase := .writing c (left.erase c) dead } := by
  refine h.rephase (Finset.notMem_erase c left) ?_ ?_
  · rw [hphase]
    show conn ∈ insert c (left.erase c) ↔ conn ∈ left
    rw [Finset.insert_erase hc]
  · rw [hphase]
    exact id

theorem ViewInv.endOther (h : ViewInv conn v) {left : Finset κ} {dead : List κ} {c : κ} {err : Bool}
    (hphase : v.phase = .writing c left dead) (hc : conn ≠ c) :
    ViewInv conn { v with phase := .ranging left (if err then dead ++ [c] else dead) } := by
  refine h.rephase trivial ?_ ?_
  · rw [hphase]
    show conn ∈ left ↔ conn ∈ insert c left
    rw [Finset.mem_insert, or_iff_right hc]
  · rw [hphase]
    intro hmem
    show conn ∈ if err then dead ++ [c] else dead
    split_ifs
    · exact List.mem_append_left _ hmem
    · exact hmem

theorem ViewInv.endOwn (h : ViewInv conn v) {left : Finset κ} {dead : List κ} {err : Bool}
    (hphase : v.phase = .writing conn left dead) :
    ViewInv conn { v with
      phase := .ranging left (if err then dead ++ [conn] else dead)
      writes := v.writes ++ [(v.audiences.length - 1, err)] } := by
  have hfresh : conn ∉ left := by
    have hfresh := h.fresh
    rw [hphase] at hfresh
    exact hfresh
  have hpending : conn ∈ v.phase.pending := by
    rw [hphase]
    exact Finset.mem_insert_self conn left
  have hdue : v.due conn = [v.audiences.length - 1] := if_pos hpending
  -- a write on it is only begun while none has failed
  have hclean : ∀ x ∈ v.writes, x.2 = false := fun x hx => by
    by_contra herr
    exact (h.fallen ⟨x, hx, Bool.of_not_eq_false herr⟩).1 hpending
  refine ⟨trivial, ?_, h.consecutive, h.current, h.unborn, ?_, fun hx => ⟨hfresh, ?_⟩⟩
  · have hwritten := h.written
    rw [hdue] at hwritten
    have hnone : View.due { v with
        phase := .ranging left (if err then dead ++ [conn] else dead)
        writes := v.writes ++ [(v.audiences.length - 1, err)] } conn = [] := if_neg hfresh
    rw [hnone, List.map_append, List.append_nil]
    exact hwritten
  · rw [List.dropLast_concat]
    exact hclean
  · obtain ⟨x, hx, herr⟩ := hx
    rcases List.mem_append.mp hx with hx | hx
    · rw [hclean x hx] at herr
      cases herr
    · rw [List.mem_singleton.mp hx] at herr
      obtain rfl : err = true := herr
      exact Or.inl (List.mem_append_right dead (List.mem_singleton_self conn))

theorem ViewInv.rUnlock (h : ViewInv conn v) {dead : List κ} (hphase : v.phase = .ranging ∅ dead) :
    ViewInv conn { v with phase := .outside dead } := by
  refine h.rephase trivial ?_ ?_ <;> rw [hphase]
  · exact Iff.rfl
  · exact id

theorem ViewInv.lockDead (h : ViewInv conn v) {dead : List κ} {c : κ}
    (hphase : v.phase = .outside (c :: dead)) :
    ViewInv conn { v with phase := .unregistering c dead } := by
  refine h.rephase trivial ?_ ?_ <;> rw [hphase]
  · exact Iff.rfl
  · exact id

theorem ViewInv.unlockDead (h : ViewInv conn v) {dead : List κ} {c : κ}
    (hphase : v.phase = .unregistering c dead) :
    ViewInv conn { v with phase := .outside dead, clients := v.clients.erase c } := by
  have hpending : (BroadcastPhase.outside dead).pending = v.phase.pending := by
    rw [hphase]
    rfl
  refine ⟨trivial, ?_, h.consecutive, fun hmem => h.current (Finset.mem_of_mem_erase hmem), ?_,
    h.last, fun hx => ?_⟩
  · unfold View.due
    rw [hpending]
    exact h.written
  · intro hborn
    obtain ⟨hnot, hheard⟩ := h.unborn hborn
    exact ⟨fun hmem => hnot (Finset.mem_of_mem_erase hmem), hheard⟩
  · obtain ⟨hnot, hdead⟩ := h.fallen hx
    refine ⟨hpending ▸ hnot, ?_⟩
    rw [hphase] at hdead
    rcases hdead with hdead | hgone
    · rcases List.mem_cons.mp hdead with rfl | hdead
      · exact Or.inr (Finset.notMem_erase _ _)
      · exact Or.inl hdead
    · exact Or.inr fun hmem => hgone (Finset.mem_of_mem_erase hmem)

end View

/-! ## What one event does -/

/-- What one event does, guards included. -/
inductive LogSteps (w : Log κ) : Event κ → Log κ → Prop
  | rLock (b : Broadcaster) (m : RWMutex) (phase : w.state.broadcast b = .outside [])
      (lock : w.state.clientsMu.rLock = some m) :
      LogSteps w (.rLock b)
        { w with
          state := { w.state.setBroadcast b (.ranging w.state.clients []) with clientsMu := m }
          audiences := Function.update w.audiences b (w.audiences b ++ [w.state.clients]) }
  | beginWrite (b : Broadcaster) (conn : κ) (left : Finset κ) (dead : List κ)
      (phase : w.state.broadcast b = .ranging left dead) (mem : conn ∈ left) :
      LogSteps w (.beginWrite b conn)
        { w with state := w.state.setBroadcast b (.writing conn (left.erase conn) dead) }
  | endWrite (b : Broadcaster) (err : Bool) (conn : κ) (left : Finset κ) (dead : List κ)
      (phase : w.state.broadcast b = .writing conn left dead) :
      LogSteps w (.endWrite b err)
        { w with
          state := w.state.setBroadcast b (.ranging left (if err then dead ++ [conn] else dead))
          writes := Function.update w.writes b (Function.update (w.writes b) conn
            (w.writes b conn ++ [((w.audiences b).length - 1, err)])) }
  | rUnlock (b : Broadcaster) (dead : List κ) (phase : w.state.broadcast b = .ranging ∅ dead) :
      LogSteps w (.rUnlock b)
        { w with state := { w.state.setBroadcast b (.outside dead) with
            clientsMu := w.state.clientsMu.rUnlock } }
  | lockDead (b : Broadcaster) (conn : κ) (dead : List κ) (m : RWMutex)
      (phase : w.state.broadcast b = .outside (conn :: dead))
      (lock : w.state.clientsMu.lock = some m) :
      LogSteps w (.lockDead b)
        { w with state := { w.state.setBroadcast b (.unregistering conn dead) with
            clientsMu := m } }
  | unlockDead (b : Broadcaster) (conn : κ) (dead : List κ)
      (phase : w.state.broadcast b = .unregistering conn dead) :
      LogSteps w (.unlockDead b)
        { w with state := { w.state.setBroadcast b (.outside dead) with
            clients := w.state.clients.erase conn
            clientsMu := w.state.clientsMu.unlock } }
  | lockNew (conn : κ) (m : RWMutex) (phase : w.state.handler conn = .absent)
      (lock : w.state.clientsMu.lock = some m) :
      LogSteps w (.lockNew conn)
        { w with state := { w.state.setHandler conn .registering with clientsMu := m } }
  | unlockNew (conn : κ) (phase : w.state.handler conn = .registering) :
      LogSteps w (.unlockNew conn)
        { w with state := { w.state.setHandler conn .registered with
            clients := insert conn w.state.clients
            clientsMu := w.state.clientsMu.unlock } }
  | serve (e : Event κ) (conn : κ) (target : HandlerPhase) (born : (w.state.handler conn).born)
      (born' : target.born) (free : ¬ (w.state.handler conn).Locked) (free' : ¬ target.Locked) :
      LogSteps w e { w with state := w.state.setHandler conn target }
  | lockOld (conn : κ) (m : RWMutex) (phase : w.state.handler conn = .serving)
      (lock : w.state.clientsMu.lock = some m) :
      LogSteps w (.lockOld conn)
        { w with state := { w.state.setHandler conn .unregistering with clientsMu := m } }
  | unlockOld (conn : κ) (phase : w.state.handler conn = .unregistering) :
      LogSteps w (.unlockOld conn)
        { w with state := { w.state.setHandler conn .returned with
            clients := w.state.clients.erase conn
            clientsMu := w.state.clientsMu.unlock } }

theorem logSteps_of_logStep {w w' : Log κ} {e : Event κ} (h : logStep w e = some w') :
    LogSteps w e w' := by
  obtain ⟨state, hstate, rfl⟩ := Option.map_eq_some_iff.mp h
  -- the three events of a handler that touch neither the map nor the lock
  have hserve : ∀ {conn : κ} {source target : HandlerPhase}, source.born → target.born →
      ¬ source.Locked → ¬ target.Locked → w.state.handler conn = source →
        LogSteps w e { w with state := w.state.setHandler conn target } := by
    intro conn source target hborn hborn' hfree hfree' hphase
    exact .serve e conn target (by rwa [hphase]) hborn' (by rwa [hphase]) hfree'
  cases steps_of_step hstate with
  | rLock b m hphase hm => exact .rLock b m hphase hm
  | beginWrite b conn left dead hphase hmem => exact .beginWrite b conn left dead hphase hmem
  | endWrite b err conn left dead hphase =>
    simp only [hphase]
    exact .endWrite b err conn left dead hphase
  | rUnlock b dead hphase => exact .rUnlock b dead hphase
  | lockDead b conn dead m hphase hm => exact .lockDead b conn dead m hphase hm
  | unlockDead b conn dead hphase => exact .unlockDead b conn dead hphase
  | lockNew conn m hphase hm => exact .lockNew conn m hphase hm
  | unlockNew conn hphase => exact .unlockNew conn hphase
  | beginFirst conn hphase => exact hserve rfl rfl id id hphase
  | endFirst conn hphase => exact hserve rfl rfl id id hphase
  | skipFirst conn hphase => exact hserve rfl rfl id id hphase
  | lockOld conn m hphase hm => exact .lockOld conn m hphase hm
  | unlockOld conn hphase => exact .unlockOld conn hphase

/-! ## The invariant -/

/-- The invariant: of every broadcaster and connection, of the lock, and of the loops. -/
structure LogInv (w : Log κ) : Prop where
  view : ∀ b conn, ViewInv conn (w.view b conn)
  lock : Guards w.state.clientsMu w.state.writers w.state.readers
  ranged : ∀ b, (w.state.broadcast b).reading = true →
    (w.audiences b).getLast? = some w.state.clients

section Goroutines

variable {s t : State κ} {w w' : Log κ} {b : Broadcaster} {conn : κ}

omit [DecidableEq κ] in
theorem writers_of_broadcaster (hb : ∀ b' ≠ b, t.broadcast b' = s.broadcast b')
    (hh : t.handler = s.handler) :
    ∀ g ≠ Goroutine.broadcaster b, g ∈ t.writers → g ∈ s.writers := by
  intro g hg hmem
  cases g with
  | broadcaster b' =>
    have hphase := hb b' fun hc => hg (congrArg _ hc)
    show (s.broadcast b').Locked
    rw [← hphase]
    exact hmem
  | handler conn =>
    show (s.handler conn).Locked
    rw [← hh]
    exact hmem

omit [DecidableEq κ] in
theorem writers_of_handler (hb : t.broadcast = s.broadcast)
    (hh : ∀ c ≠ conn, t.handler c = s.handler c) :
    ∀ g ≠ Goroutine.handler conn, g ∈ t.writers → g ∈ s.writers := by
  intro g hg hmem
  cases g with
  | broadcaster b' =>
    show (s.broadcast b').Locked
    rw [← hb]
    exact hmem
  | handler c =>
    have hphase := hh c fun hc => hg (congrArg _ hc)
    show (s.handler c).Locked
    rw [← hphase]
    exact hmem

omit [DecidableEq κ] in
theorem writers_eq {g : Goroutine κ} (h : ∀ g' ≠ g, g' ∈ t.writers → g' ∈ s.writers)
    (h' : ∀ g' ≠ g, g' ∈ s.writers → g' ∈ t.writers) (hs : g ∉ s.writers) (ht : g ∉ t.writers) :
    t.writers = s.writers := by
  ext g'
  by_cases hg : g' = g
  · subst hg
    exact iff_of_false ht hs
  · exact ⟨h g' hg, h' g' hg⟩

omit [DecidableEq κ] in
theorem readers_eq (h : ∀ b, (t.broadcast b).reading = (s.broadcast b).reading) :
    t.readers = s.readers := by
  unfold State.readers
  simp only [h]

omit [DecidableEq κ] in
theorem mem_readers : b ∈ s.readers ↔ (s.broadcast b).reading = true := by
  unfold State.readers
  rw [Finset.mem_filter]
  exact and_iff_right (Finset.mem_univ b)

omit [DecidableEq κ] in
theorem readers_insert (h : ∀ b' ≠ b, t.broadcast b' = s.broadcast b')
    (hb : (t.broadcast b).reading = true) : t.readers = insert b s.readers := by
  ext b'
  rw [Finset.mem_insert, mem_readers, mem_readers]
  by_cases he : b' = b
  · subst he
    exact iff_of_true hb (Or.inl rfl)
  · rw [h b' he, or_iff_right he]

omit [DecidableEq κ] in
theorem readers_erase (h : ∀ b' ≠ b, t.broadcast b' = s.broadcast b')
    (hb : (t.broadcast b).reading = false) : t.readers = s.readers.erase b := by
  ext b'
  rw [Finset.mem_erase, mem_readers, mem_readers]
  by_cases he : b' = b
  · subst he
    rw [hb]
    exact iff_of_false Bool.false_ne_true fun hc => hc.1 rfl
  · rw [h b' he]
    exact (and_iff_right he).symm

theorem views_of_broadcaster (h : ∀ b conn, ViewInv conn (w.view b conn))
    (hb : ∀ b' ≠ b, w'.state.broadcast b' = w.state.broadcast b' ∧
      w'.audiences b' = w.audiences b' ∧ w'.writes b' = w.writes b')
    (hclients : w'.state.clients ⊆ w.state.clients) (hh : w'.state.handler = w.state.handler)
    (hself : ∀ conn, ViewInv conn (w'.view b conn)) : ∀ b conn, ViewInv conn (w'.view b conn) := by
  intro b' conn
  by_cases he : b' = b
  · subst he
    exact hself conn
  · obtain ⟨hphase, haudiences, hwrites⟩ := hb b' he
    refine (h b' conn).quiet hphase haudiences (congrFun hwrites conn)
      (fun hmem => hclients hmem) ?_
    show (w'.state.handler conn).born = false → (w.state.handler conn).born = false
    rw [hh]
    exact id

/-- A step of a handler that leaves the map as it is or takes its connection out of it. -/
theorem views_of_handler (h : ∀ b conn, ViewInv conn (w.view b conn)) {target : HandlerPhase}
    (hstate : w'.state.broadcast = w.state.broadcast) (haudiences : w'.audiences = w.audiences)
    (hwrites : w'.writes = w.writes) (hclients : w'.state.clients ⊆ w.state.clients)
    (hh : w'.state.handler = Function.update w.state.handler conn target)
    (hborn : target.born = (w.state.handler conn).born) :
    ∀ b conn, ViewInv conn (w'.view b conn) := by
  intro b c
  refine (h b c).quiet (congrFun hstate b) (congrFun haudiences b)
    (congrFun (congrFun hwrites b) c) (fun hmem => hclients hmem) ?_
  show (w'.state.handler c).born = false → (w.state.handler c).born = false
  rw [hh]
  by_cases hc : c = conn
  · subst hc
    rw [Function.update_self, hborn]
    exact id
  · rw [Function.update_of_ne hc]
    exact id

end Goroutines

theorem LogInv.start : LogInv (Log.start : Log κ) where
  view b conn := by
    refine ⟨trivial, rfl, List.isChain_nil, fun hc => absurd hc (Finset.notMem_empty conn), fun _ =>
      ⟨Finset.notMem_empty conn, rfl⟩, fun x hx => absurd hx List.not_mem_nil, ?_⟩
    rintro ⟨x, hx, _⟩
    exact absurd hx List.not_mem_nil
  lock := by
    have hnone : ∀ g, g ∉ (initial : State κ).writers := by
      rintro (b | conn) h
      · exact h
      · exact h
    exact ⟨iff_of_false Bool.false_ne_true fun ⟨g, hg⟩ => hnone g hg,
      fun x hx => absurd hx (hnone x), rfl, fun _ => rfl⟩
  ranged b h := by cases h

section Step

variable {w w' : Log κ}

/-- While a goroutine has the lock, no loop is running. -/
theorem LogInv.not_reading (h : LogInv w) {g : Goroutine κ} (hg : g ∈ w.state.writers)
    (b : Broadcaster) : (w.state.broadcast b).reading = false :=
  Bool.eq_false_iff.mpr fun hc => h.lock.not_mem_readers hg b (mem_readers.mpr hc)

/-- The steps of a broadcast, from `RLock` to `RUnlock`. -/
theorem LogInv.broadcast (h : LogInv w) {b : Broadcaster} {phase : BroadcastPhase κ}
    {m : RWMutex} {audiences : Broadcaster → List (Finset κ)}
    {writes : Broadcaster → κ → List (ℕ × Bool)}
    (hw' : w' = ⟨{ w.state.setBroadcast b phase with clientsMu := m }, audiences, writes⟩)
    (haudiences : ∀ b' ≠ b, audiences b' = w.audiences b')
    (hwrites : ∀ b' ≠ b, writes b' = w.writes b')
    (hself : ∀ conn, ViewInv conn
      ⟨phase, w.state.clients, (w.state.handler conn).born, audiences b, writes b conn⟩)
    (hfree : ¬ (w.state.broadcast b).Locked) (hfree' : ¬ phase.Locked)
    (hlock : Guards m w.state.writers (if phase.reading then insert b w.state.readers
      else w.state.readers.erase b))
    (hranged : phase.reading = true → (audiences b).getLast? = some w.state.clients) :
    LogInv w' := by
  subst hw'
  have hother : ∀ b' ≠ b, Function.update w.state.broadcast b phase b' = w.state.broadcast b' :=
    fun b' hb' => Function.update_of_ne hb' _ _
  have hsame : Function.update w.state.broadcast b phase b = phase := Function.update_self _ _ _
  refine ⟨views_of_broadcaster h.view (fun b' hb' => ⟨hother b' hb', haudiences b' hb',
    hwrites b' hb'⟩) (Finset.Subset.refl _) rfl fun conn => ?_, ?_, fun b' hb' => ?_⟩
  · show ViewInv conn ⟨Function.update w.state.broadcast b phase b, _, _, _, _⟩
    rw [hsame]
    exact hself conn
  · have hwriters := writers_eq (g := .broadcaster b)
      (writers_of_broadcaster (s := w.state) (t := w.state.setBroadcast b phase) hother rfl)
      (writers_of_broadcaster (fun b' hb' => (hother b' hb').symm) rfl) hfree (by
        show ¬ (Function.update w.state.broadcast b phase b).Locked
        rw [hsame]
        exact hfree')
    show Guards m (w.state.setBroadcast b phase).writers (w.state.setBroadcast b phase).readers
    rw [hwriters]
    -- `b` is among the readers after the step exactly if its new phase is in the range
    cases hphase : phase.reading with
    | true =>
      rw [hphase, if_pos rfl] at hlock
      rwa [readers_insert hother (by rw [← hphase]; exact congrArg _ hsame)]
    | false =>
      rw [hphase, if_neg Bool.false_ne_true] at hlock
      rwa [readers_erase hother (by rw [← hphase]; exact congrArg _ hsame)]
  · by_cases he : b' = b
    · subst he
      change (Function.update w.state.broadcast b' phase b').reading = true at hb'
      rw [hsame] at hb'
      exact hranged hb'
    · change (Function.update w.state.broadcast b phase b').reading = true at hb'
      rw [hother b' he] at hb'
      show (audiences b').getLast? = _
      rw [haudiences b' he]
      exact h.ranged b' hb'

omit [DecidableEq κ] in
theorem readers_of_reading {s : State κ} {b : Broadcaster} (h : (s.broadcast b).reading = true) :
    insert b s.readers = s.readers := Finset.insert_eq_of_mem (mem_readers.mpr h)

/-- A goroutine takes or leaves the lock, while no loop is running. -/
theorem LogInv.exclusive (h : LogInv w) {state : State κ} {g : Goroutine κ}
    (hquiet : ∀ b, (state.broadcast b).reading = false)
    (hquiet' : ∀ b, (w.state.broadcast b).reading = false)
    (hviews : ∀ b conn, ViewInv conn (Log.view { w with state := state } b conn))
    (hother : ∀ g' ≠ g, g' ∈ state.writers → g' ∈ w.state.writers)
    (hlock : w.state.clientsMu.lock = some state.clientsMu ∧ g ∈ state.writers ∨
      w.state.clientsMu.unlock = state.clientsMu ∧ g ∈ w.state.writers ∧ g ∉ state.writers) :
    LogInv { w with state := state } := by
  refine ⟨hviews, ?_, fun b hb => ?_⟩
  · have hreaders : state.readers = w.state.readers :=
      readers_eq fun b => (hquiet b).trans (hquiet' b).symm
    show Guards state.clientsMu state.writers state.readers
    rw [hreaders]
    rcases hlock with ⟨hm, hg⟩ | ⟨hm, hg, hg'⟩
    · exact h.lock.lock hm hg hother
    · rw [← hm]
      exact h.lock.unlock hg hg' hother
  · rw [hquiet b] at hb
    cases hb

theorem LogInv.not_reading_of_lock (h : LogInv w) {m : RWMutex}
    (hm : w.state.clientsMu.lock = some m) (b : Broadcaster) :
    (w.state.broadcast b).reading = false := by
  unfold RWMutex.lock at hm
  split_ifs at hm with hfree
  rw [not_or, not_not, h.lock.readers, Finset.card_eq_zero] at hfree
  refine Bool.eq_false_iff.mpr fun hc => ?_
  have hmem := mem_readers.mpr hc
  rw [hfree.2] at hmem
  exact absurd hmem (Finset.notMem_empty b)

theorem LogInv.exclusiveBroadcaster (h : LogInv w) {b : Broadcaster} {phase : BroadcastPhase κ}
    {m : RWMutex} {clients : Finset κ} (hquiet : ∀ b, (w.state.broadcast b).reading = false)
    (hphase : phase.reading = false) (hclients : clients ⊆ w.state.clients)
    (hself : ∀ conn, ViewInv conn
      ⟨phase, clients, (w.state.handler conn).born, w.audiences b, w.writes b conn⟩)
    (hlock : w.state.clientsMu.lock = some m ∧ phase.Locked ∨
      w.state.clientsMu.unlock = m ∧ (w.state.broadcast b).Locked ∧ ¬ phase.Locked) :
    LogInv { w with state :=
      { w.state.setBroadcast b phase with clients := clients, clientsMu := m } } := by
  have hother : ∀ b' ≠ b, Function.update w.state.broadcast b phase b' = w.state.broadcast b' :=
    fun b' hb' => Function.update_of_ne hb' _ _
  have hsame : Function.update w.state.broadcast b phase b = phase := Function.update_self _ _ _
  refine h.exclusive (g := .broadcaster b) (fun b' => ?_) hquiet
    (views_of_broadcaster h.view (fun b' hb' => ⟨hother b' hb', rfl, rfl⟩) hclients rfl
      fun conn => ?_) (writers_of_broadcaster hother rfl) (hlock.imp (And.imp_right ?_)
        (And.imp_right (And.imp_right ?_)))
  · show (Function.update w.state.broadcast b phase b').reading = false
    by_cases he : b' = b
    · subst he
      rw [hsame]
      exact hphase
    · rw [hother b' he]
      exact hquiet b'
  · show ViewInv conn ⟨Function.update w.state.broadcast b phase b, _, _, _, _⟩
    rw [hsame]
    exact hself conn
  · intro hlocked
    show (Function.update w.state.broadcast b phase b).Locked
    rwa [hsame]
  · intro hlocked
    show ¬ (Function.update w.state.broadcast b phase b).Locked
    rwa [hsame]

theorem LogInv.exclusiveHandler (h : LogInv w) {conn : κ} {target : HandlerPhase} {m : RWMutex}
    {clients : Finset κ} (hquiet : ∀ b, (w.state.broadcast b).reading = false)
    (hviews : ∀ b c, ViewInv c (Log.view { w with state :=
      { w.state.setHandler conn target with clients := clients, clientsMu := m } } b c))
    (hlock : w.state.clientsMu.lock = some m ∧ target.Locked ∨
      w.state.clientsMu.unlock = m ∧ (w.state.handler conn).Locked ∧ ¬ target.Locked) :
    LogInv { w with state :=
      { w.state.setHandler conn target with clients := clients, clientsMu := m } } := by
  have hsame : Function.update w.state.handler conn target conn = target :=
    Function.update_self _ _ _
  refine h.exclusive (g := .handler conn) hquiet hquiet hviews
    (writers_of_handler rfl fun c hc => Function.update_of_ne hc _ _)
    (hlock.imp (And.imp_right ?_) (And.imp_right (And.imp_right ?_)))
  · intro hlocked
    show (Function.update w.state.handler conn target conn).Locked
    rwa [hsame]
  · intro hlocked
    show ¬ (Function.update w.state.handler conn target conn).Locked
    rwa [hsame]

theorem LogInv.step {e : Event κ} (h : LogInv w) (hstep : logStep w e = some w') : LogInv w' := by
  cases logSteps_of_logStep hstep with
  | rLock b m hphase hm =>
    -- the range begins with the clients of this moment, so only the view of `b` starts anew
    refine h.broadcast rfl (fun b' hb' => Function.update_of_ne hb' _ _) (fun b' _ => rfl)
      (fun conn => ?_) (by rw [hphase]; exact id) id ?_ fun _ => ?_
    · rw [Function.update_self]
      exact (h.view b conn).rLock hphase
    · refine h.lock.rLock hm fun hmem => ?_
      have hreading := mem_readers.mp hmem
      rw [hphase] at hreading
      cases hreading
    · rw [Function.update_self, List.getLast?_concat]
  | beginWrite b conn left dead hphase hmem =>
    have hreading : (w.state.broadcast b).reading = true := by rw [hphase]; rfl
    refine h.broadcast rfl (fun b' _ => rfl) (fun b' _ => rfl)
      (fun c => (h.view b c).beginWrite hphase hmem) (by rw [hphase]; exact id) id ?_
      fun _ => h.ranged b hreading
    show Guards w.state.clientsMu w.state.writers (insert b w.state.readers)
    rw [readers_of_reading hreading]
    exact h.lock
  | endWrite b err conn left dead hphase =>
    have hreading : (w.state.broadcast b).reading = true := by rw [hphase]; rfl
    refine h.broadcast rfl (fun b' _ => rfl) (fun b' hb' => Function.update_of_ne hb' _ _)
      (fun c => ?_) (by rw [hphase]; exact id) id ?_ fun _ => h.ranged b hreading
    · rw [Function.update_self]
      by_cases hc : c = conn
      · subst hc
        rw [Function.update_self]
        exact (h.view b c).endOwn hphase
      · rw [Function.update_of_ne hc]
        exact (h.view b c).endOther hphase hc
    · show Guards w.state.clientsMu w.state.writers (insert b w.state.readers)
      rw [readers_of_reading hreading]
      exact h.lock
  | rUnlock b dead hphase =>
    have hreading : (w.state.broadcast b).reading = true := by rw [hphase]; rfl
    refine h.broadcast rfl (fun b' _ => rfl) (fun b' _ => rfl)
      (fun c => (h.view b c).rUnlock hphase) (by rw [hphase]; exact id) id ?_ (fun hc => nomatch hc)
    exact h.lock.rUnlock (mem_readers.mpr hreading)
  | lockDead b conn dead m hphase hm =>
    -- under the write lock no loop is in its range, so no view depends on the map
    exact h.exclusiveBroadcaster (h.not_reading_of_lock hm) rfl (Finset.Subset.refl _)
      (fun c => (h.view b c).lockDead hphase) (Or.inl ⟨hm, trivial⟩)
  | unlockDead b conn dead hphase =>
    have hlocked : (w.state.broadcast b).Locked := by rw [hphase]; trivial
    exact h.exclusiveBroadcaster (h.not_reading (g := .broadcaster b) hlocked) rfl
      (Finset.erase_subset _ _) (fun c => (h.view b c).unlockDead hphase)
      (Or.inr ⟨rfl, hlocked, id⟩)
  | lockNew conn m hphase hm =>
    refine h.exclusiveHandler (h.not_reading_of_lock hm) (views_of_handler h.view rfl rfl rfl
      (Finset.Subset.refl _) rfl ?_) (Or.inl ⟨hm, trivial⟩)
    rw [hphase]
    rfl
  | unlockNew conn hphase =>
    have hlocked : (w.state.handler conn).Locked := by rw [hphase]; trivial
    refine h.exclusiveHandler (h.not_reading (g := .handler conn) hlocked) (fun b c => ?_)
      (Or.inr ⟨rfl, hlocked, id⟩)
    by_cases hc : c = conn
    · subst hc
      -- `clients[conn] = true` is the birth of `c`: no frame was due to it before
      refine (h.view b c).birth rfl rfl rfl ?_ ?_
      · show (w.state.handler c).born = false
        rw [hphase]
        rfl
      · show (Function.update w.state.handler c .registered c).born = true
        rw [Function.update_self]
        rfl
    · refine (h.view b c).quiet rfl rfl rfl (fun hmem => ?_) ?_
      · exact (Finset.mem_insert.mp hmem).resolve_left hc
      · show (Function.update w.state.handler conn .registered c).born = false → _
        rw [Function.update_of_ne hc]
        exact id
  | serve _ conn target hborn hborn' hfree hfree' =>
    have hviews : ∀ b c, ViewInv c
        (Log.view { w with state := w.state.setHandler conn target } b c) :=
      views_of_handler h.view rfl rfl rfl (Finset.Subset.refl _) rfl (hborn'.trans hborn.symm)
    have hwriters := writers_eq (g := .handler conn) (s := w.state)
      (writers_of_handler (t := w.state.setHandler conn target) rfl
        fun c hc => Function.update_of_ne hc _ _)
      (writers_of_handler rfl fun c hc => (Function.update_of_ne hc _ _).symm) hfree (by
        show ¬ (Function.update w.state.handler conn target conn).Locked
        rw [Function.update_self]
        exact hfree')
    refine ⟨hviews, ?_, h.ranged⟩
    show Guards w.state.clientsMu (w.state.setHandler conn target).writers w.state.readers
    rw [hwriters]
    exact h.lock
  | lockOld conn m hphase hm =>
    refine h.exclusiveHandler (h.not_reading_of_lock hm) (views_of_handler h.view rfl rfl rfl
      (Finset.Subset.refl _) rfl ?_) (Or.inl ⟨hm, trivial⟩)
    rw [hphase]
    rfl
  | unlockOld conn hphase =>
    have hlocked : (w.state.handler conn).Locked := by rw [hphase]; trivial
    refine h.exclusiveHandler (h.not_reading (g := .handler conn) hlocked) (views_of_handler h.view
      rfl rfl rfl (Finset.erase_subset _ _) rfl ?_) (Or.inr ⟨rfl, hlocked, id⟩)
    rw [hphase]
    rfl

end Step

/-! ## Every interleaving -/

/-- **Each client gets each broadcast once.** In every state that some interleaving reaches, for
each broadcaster and each client: the broadcasts whose write on it has ended, and the one that is
still to be written, are those that found it registered, in order and without a gap between them; a
write that fails is the last one; and while a loop ranges over the map, it holds the clients that
the loop started with. -/
theorem delivered_once {w : Log κ} (h : Reachable logStep Log.start w) (b : Broadcaster)
    (conn : κ) :
    (w.writes b conn).map Prod.fst ++ (w.view b conn).due conn = heard (w.audiences b) conn ∧
      ((w.writes b conn).map Prod.fst).IsChain (fun i j => j = i + 1) ∧
      (∀ x ∈ (w.writes b conn).dropLast, x.2 = false) ∧
      ((w.state.broadcast b).reading = true →
        (w.audiences b).getLast? = some w.state.clients) := by
  have hinv : LogInv w := h.invariant LogInv.start fun _ _ _ hi hs => hi.step hs
  have hview := hinv.view b conn
  refine ⟨hview.written, ?_, hview.last, hinv.ranged b⟩
  have hchain := hview.consecutive
  rw [← hview.written] at hchain
  exact (List.isChain_append.mp hchain).1

/-- A client connects between two broadcasts, and the write of the second one on it fails. -/
def connectsBetween : List (Event (Fin 1)) :=
  [.rLock .streamRedisEvents, .rUnlock .streamRedisEvents, .lockNew 0, .unlockNew 0,
    .rLock .streamRedisEvents, .beginWrite .streamRedisEvents 0, .endWrite .streamRedisEvents true]

theorem delivered_once_connectsBetween :
    ∃ w, run logStep Log.start connectsBetween = some w ∧
      (w.writes .streamRedisEvents 0).map Prod.fst ++ (w.view .streamRedisEvents 0).due 0 =
        heard (w.audiences .streamRedisEvents) 0 ∧
      ((w.writes .streamRedisEvents 0).map Prod.fst).IsChain (fun i j => j = i + 1) ∧
      (∀ x ∈ (w.writes .streamRedisEvents 0).dropLast, x.2 = false) ∧
      ((w.state.broadcast .streamRedisEvents).reading = true →
        (w.audiences .streamRedisEvents).getLast? = some w.state.clients) := by
  have hsome : (run logStep Log.start connectsBetween).isSome = true := by decide
  obtain ⟨w, hw⟩ := Option.isSome_iff_exists.mp hsome
  exact ⟨w, hw, delivered_once ⟨_, hw⟩ _ _⟩

/-- It is written the second broadcast alone, and that with an error. -/
example : (run logStep Log.start connectsBetween).map (fun w => w.writes .streamRedisEvents 0) =
    some [(1, true)] := by decide

end PortfolioEngine.WriteExclusion
