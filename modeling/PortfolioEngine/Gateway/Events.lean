import Mathlib.Data.Fintype.Basic
import Mathlib.Data.List.Induction
import Mathlib.Logic.Function.Basic
import PortfolioEngine.Lib.Runs
import PortfolioEngine.Lib.Streams

/-!
# Forwarding of stream events

`streamRedisEvents` of the gateway reads the kline and the portfolio stream in one blocking
`XREAD` and broadcasts what it gets. Its cursor on a stream stays at `$`, the last id when the
call is made, until the first entry of that stream has arrived.

The world is both streams, the two cursors, the call in progress and the broadcasts so far. The
ids that `$` stands for are taken when the call is made; a reply leaves as soon as an entry is
there, and can be lost on the way.
-/

namespace PortfolioEngine.Gateway

open Streams

variable {α : Type*}

/-- The topics of the envelopes, one for each stream. -/
inductive Topic where
  | price
  | portfolio
  deriving DecidableEq

/-- Where the loop is: between two calls, in a call that waits after `ids`, or before the messages
of a reply. -/
inductive Reader (α : Type*) where
  | idle
  | blocked (ids : Topic → ℕ)
  | replied (messages : Topic → List (Entry α))

/-- `cursors` are `lastKlineID` and `lastPortfolioID`, with `none` for `$`; `opened` is what the
streams held when the first call was made. -/
structure World (α : Type*) where
  streams : Topic → Stream α
  cursors : Topic → Option ℕ
  reader : Reader α
  sent : List (Topic × Entry α)
  opened : Option (Topic → List (Entry α))

inductive Event (α : Type*) where
  | xadd (t : Topic) (e : Entry α)
  | call
  | timeout
  | error
  | deliver

/-- The `Count` of a call. -/
def count : ℕ := 200

/-- What `XREAD` returns for each stream. -/
def xread (streams : Topic → Stream α) (ids : Topic → ℕ) (t : Topic) : List (Entry α) :=
  ((streams t).after (ids t)).take count

/-- The ids of a call, `$` resolved. -/
def resolve (w : World α) (t : Topic) : ℕ := (w.cursors t).getD (w.streams t).lastId

/-- The server side of a call: a reply if there is an entry, or else the wait for one. -/
def serve (streams : Topic → Stream α) (ids : Topic → ℕ) : Reader α :=
  if xread streams ids .price = [] ∧ xread streams ids .portfolio = [] then .blocked ids
  else .replied (xread streams ids)

/-- One message of a reply: move the cursor and broadcast. -/
def deliverOne (t : Topic) (w : World α) (msg : Entry α) : World α :=
  { w with
    cursors := Function.update w.cursors t (some msg.id)
    sent := w.sent ++ [(t, msg)] }

/-- The messages of one stream of a reply. -/
def deliverAll (t : Topic) (w : World α) (msgs : List (Entry α)) : World α :=
  msgs.foldl (deliverOne t) w

/-- One event. -/
def step (w : World α) : Event α → Option (World α)
  | .xadd t e =>
    if h : (w.streams t).lastId < e.id then
      let streams := Function.update w.streams t ((w.streams t).xadd e h)
      match w.reader with
      | .blocked ids => some { w with streams, reader := serve streams ids }
      | _ => some { w with streams }
    else none
  | .call =>
    match w.reader with
    | .idle => some
        { w with
          reader := serve w.streams (resolve w)
          opened := some (w.opened.getD fun t => (w.streams t).entries) }
    | _ => none
  | .timeout =>
    match w.reader with
    | .blocked _ => some { w with reader := .idle }
    | _ => none
  | .error => some { w with reader := .idle }
  | .deliver =>
    match w.reader with
    | .replied messages =>
      let w := deliverAll .price w (messages .price)
      let w := deliverAll .portfolio w (messages .portfolio)
      some { w with reader := .idle }
    | _ => none

/-- The gateway before its first call. -/
def World.start (streams : Topic → Stream α) : World α :=
  ⟨streams, fun _ => none, .idle, [], none⟩

/-- The broadcasts of one topic. -/
def log (w : World α) (t : Topic) : List (Entry α) :=
  (w.sent.filter fun p => p.1 = t).map Prod.snd

/-- Since the first call each stream's entries are broadcast in order and once, and all of them
when the reader waits for more. -/
def Forwarded (w : World α) : Prop :=
  ∀ old ∈ w.opened, ∀ t, old t ++ log w t <+: (w.streams t).entries ∧
    ∀ ids, w.reader = .blocked ids → (w.streams t).entries = old t ++ log w t

/-- The messages of a reply that is on its way. -/
def Reader.messages : Reader α → Topic → List (Entry α)
  | .replied messages => messages
  | _ => fun _ => []

def Reader.isBlocked : Reader α → Bool
  | .blocked _ => true
  | _ => false

/-- An event that loses nothing at `$`: no entry is added to a stream whose cursor is `$` unless a
call waits for it or a reply with entries of that stream is on its way, and no reply with the
first entries of a stream is lost. -/
def Safe (w : World α) : Event α → Prop
  | .xadd t _ => w.opened.isNone ∨ w.cursors t ≠ none ∨ w.reader.isBlocked ∨
      w.reader.messages t ≠ []
  | .error => ∀ t, w.cursors t = none → w.reader.messages t = []
  | _ => True

instance : Fintype Topic := ⟨{.price, .portfolio}, fun t => by cases t <;> decide⟩

instance [DecidableEq α] (w : World α) : DecidablePred (Safe w)
  | .xadd t _ => inferInstanceAs (Decidable (w.opened.isNone ∨ w.cursors t ≠ none ∨
      w.reader.isBlocked ∨ w.reader.messages t ≠ []))
  | .error => inferInstanceAs (Decidable (∀ t, w.cursors t = none → w.reader.messages t = []))
  | .call | .timeout | .deliver => .isTrue trivial

/-! ## The invariant -/

variable {w w' : World α} {t : Topic} {old rest : List (Entry α)}

/-- What is known of the call in progress, where `rest` is what is not broadcast yet. -/
def ReaderInv (w : World α) (t : Topic) (rest : List (Entry α)) : Prop :=
  match w.reader with
  | .idle => w.cursors t = none → rest = []
  | .blocked ids => rest = [] ∧ ids t ≤ (w.streams t).lastId ∧ (w.streams t).after (ids t) = []
  | .replied messages =>
    messages t <+: rest ∧ (w.cursors t = none → messages t = [] → rest = [])

/-- A stream is what it held at the first call, then what is broadcast, then `rest`. -/
structure TopicInv (w : World α) (t : Topic) (old rest : List (Entry α)) : Prop where
  split : (w.streams t).entries = old ++ log w t ++ rest
  cursor : ∀ i ∈ w.cursors t, i ≤ (w.streams t).lastId ∧ (w.streams t).after i = rest
  unread : w.cursors t = none → log w t = []
  reader : ReaderInv w t rest

/-- The invariant: nothing has happened before the first call, and `TopicInv` holds after it. -/
structure Inv (w : World α) : Prop where
  before : w.opened = none → w.reader = .idle ∧ (∀ t, w.cursors t = none) ∧ w.sent = []
  after : ∀ old, w.opened = some old → ∀ t, ∃ rest, TopicInv w t (old t) rest

theorem xread_eq_nil {streams : Topic → Stream α} {ids : Topic → ℕ} {t : Topic} :
    xread streams ids t = [] ↔ (streams t).after (ids t) = [] := by
  unfold xread count
  rw [List.take_eq_nil_iff]
  exact ⟨fun h => h.resolve_left (by decide), Or.inr⟩

/-- A call whose ids have not seen `rest` waits for more or is answered with a part of it. -/
theorem readerInv_serve {ids : Topic → ℕ} (hw : w.reader = serve w.streams ids)
    (hle : ids t ≤ (w.streams t).lastId) (hafter : (w.streams t).after (ids t) = rest) :
    ReaderInv w t rest := by
  unfold ReaderInv
  rw [hw]
  unfold serve
  split_ifs with hnone
  · have hnil : (w.streams t).after (ids t) = [] := by
      cases t with
      | price => exact xread_eq_nil.mp hnone.1
      | portfolio => exact xread_eq_nil.mp hnone.2
    exact ⟨hafter ▸ hnil, hle, hnil⟩
  · refine ⟨?_, fun _ h => hafter ▸ xread_eq_nil.mp h⟩
    show ((w.streams t).after (ids t)).take count <+: rest
    rw [hafter]
    exact List.take_prefix _ _

theorem TopicInv.call (h : TopicInv w t old rest) (hw : w.reader = .idle)
    (hw' : w' = { w with reader := serve w.streams (resolve w), opened := w'.opened }) :
    TopicInv w' t old rest := by
  have hreader := h.reader
  unfold ReaderInv at hreader
  rw [hw] at hreader
  have hids : resolve w t ≤ (w.streams t).lastId ∧ (w.streams t).after (resolve w t) = rest := by
    unfold resolve
    cases hc : w.cursors t with
    | none => exact ⟨le_rfl, (hreader hc).symm ▸ Stream.after_eq_nil _ le_rfl⟩
    | some i => exact h.cursor i hc
  rw [hw']
  exact ⟨h.split, h.cursor, h.unread, readerInv_serve rfl hids.1 hids.2⟩

/-! ## Delivery -/

theorem streams_deliverAll (t : Topic) (w : World α) (msgs : List (Entry α)) :
    (deliverAll t w msgs).streams = w.streams ∧ (deliverAll t w msgs).opened = w.opened := by
  unfold deliverAll
  induction msgs generalizing w with
  | nil => exact ⟨rfl, rfl⟩
  | cons msg msgs ih => exact ih (deliverOne t w msg)

theorem log_deliverAll (t t' : Topic) (w : World α) (msgs : List (Entry α)) :
    log (deliverAll t w msgs) t' = log w t' ++ if t = t' then msgs else [] := by
  unfold deliverAll
  induction msgs generalizing w with
  | nil => simp
  | cons msg msgs ih =>
    rw [List.foldl_cons, ih]
    unfold log deliverOne
    by_cases ht : t = t'
    · simp [ht]
    · simp [ht]

theorem cursors_deliverAll (t t' : Topic) (w : World α) (msgs : List (Entry α)) :
    (deliverAll t w msgs).cursors t' =
      if t = t' then (msgs.getLast?.map Entry.id).or (w.cursors t') else w.cursors t' := by
  unfold deliverAll
  induction msgs using List.reverseRecOn with
  | nil => simp
  | append_singleton msgs msg ih =>
    rw [List.foldl_concat, List.getLast?_concat]
    show Function.update (msgs.foldl (deliverOne t) w).cursors t (some msg.id) t' = _
    by_cases ht : t = t'
    · simp [ht]
    · simp only [if_neg ht] at ih ⊢
      rw [Function.update_of_ne (Ne.symm ht), ih]

/-- The world after the messages of a reply. -/
def delivered (w : World α) (messages : Topic → List (Entry α)) : World α :=
  { deliverAll .portfolio (deliverAll .price w (messages .price)) (messages .portfolio) with
    reader := .idle }

theorem log_delivered (w : World α) (messages : Topic → List (Entry α)) (t : Topic) :
    log (delivered w messages) t = log w t ++ messages t := by
  show log (deliverAll .portfolio (deliverAll .price w (messages .price)) (messages .portfolio)) t =
    log w t ++ messages t
  rw [log_deliverAll, log_deliverAll]
  cases t <;> simp

theorem cursors_delivered (w : World α) (messages : Topic → List (Entry α)) (t : Topic) :
    (delivered w messages).cursors t =
      ((messages t).getLast?.map Entry.id).or (w.cursors t) := by
  show (deliverAll .portfolio (deliverAll .price w (messages .price)) (messages .portfolio)).cursors
    t = _
  rw [cursors_deliverAll, cursors_deliverAll]
  cases t <;> simp

theorem streams_delivered (w : World α) (messages : Topic → List (Entry α)) :
    (delivered w messages).streams = w.streams := by
  show (deliverAll .portfolio _ _).streams = _
  rw [(streams_deliverAll _ _ _).1, (streams_deliverAll _ _ _).1]

theorem opened_delivered (w : World α) (messages : Topic → List (Entry α)) :
    (delivered w messages).opened = w.opened := by
  show (deliverAll .portfolio _ _).opened = _
  rw [(streams_deliverAll _ _ _).2, (streams_deliverAll _ _ _).2]

theorem TopicInv.deliver (h : TopicInv w t old rest) {messages : Topic → List (Entry α)}
    (hw : w.reader = .replied messages) :
    ∃ rest', TopicInv (delivered w messages) t old rest' := by
  have hreader := h.reader
  unfold ReaderInv at hreader
  rw [hw] at hreader
  obtain ⟨⟨rest', hrest⟩, hnone⟩ := hreader
  have hsplit : (w.streams t).entries = old ++ (log w t ++ messages t) ++ rest' := by
    rw [h.split, ← hrest]
    simp
  refine ⟨rest', ?_⟩
  rcases List.eq_nil_or_concat' (messages t) with hnil | ⟨l, x, hlx⟩
  · have hcursor : (delivered w messages).cursors t = w.cursors t := by
      rw [cursors_delivered, hnil]; rfl
    have hlog : log (delivered w messages) t = log w t := by
      rw [log_delivered, hnil, List.append_nil]
    have hrest' : rest' = rest := by rw [← hrest, hnil, List.nil_append]
    subst hrest'
    refine ⟨?_, ?_, ?_, ?_⟩
    · rw [streams_delivered, hlog]; exact h.split
    · rw [streams_delivered, hcursor]; exact h.cursor
    · rw [hcursor, hlog]; exact h.unread
    · show (delivered w messages).cursors t = none → rest' = []
      rw [hcursor]
      exact fun hc => hnone hc hnil
  · have hcursor : (delivered w messages).cursors t = some x.id := by
      rw [cursors_delivered, hlx, List.getLast?_concat]; rfl
    have hx : (w.streams t).entries = (old ++ (log w t ++ l)) ++ x :: rest' := by
      rw [hsplit, hlx]
      simp
    refine ⟨?_, ?_, ?_, ?_⟩
    · rw [streams_delivered, log_delivered]; exact hsplit
    · rw [streams_delivered, hcursor]
      rintro i ⟨⟩
      have hmem : x ∈ (w.streams t).entries := by rw [hx]; simp
      exact ⟨Stream.id_le_lastId _ hmem, Stream.after_of_split hx⟩
    · rw [hcursor]; exact fun hc => by cases hc
    · show (delivered w messages).cursors t = none → rest' = []
      rw [hcursor]; exact fun hc => by cases hc

/-! ## Every event -/

/-- What one event does, guards included. -/
inductive Steps (w : World α) : Event α → World α → Prop
  | xadd (t : Topic) (e : Entry α) (h : (w.streams t).lastId < e.id)
      (hw : ∀ ids, w.reader ≠ .blocked ids) :
      Steps w (.xadd t e)
        { w with streams := Function.update w.streams t ((w.streams t).xadd e h) }
  | wake (t : Topic) (e : Entry α) (h : (w.streams t).lastId < e.id) (ids : Topic → ℕ)
      (hw : w.reader = .blocked ids) :
      Steps w (.xadd t e)
        { w with
          streams := Function.update w.streams t ((w.streams t).xadd e h)
          reader := serve (Function.update w.streams t ((w.streams t).xadd e h)) ids }
  | call (hw : w.reader = .idle) :
      Steps w .call
        { w with
          reader := serve w.streams (resolve w)
          opened := some (w.opened.getD fun t => (w.streams t).entries) }
  | timeout (ids : Topic → ℕ) (hw : w.reader = .blocked ids) :
      Steps w .timeout { w with reader := .idle }
  | error : Steps w .error { w with reader := .idle }
  | deliver (messages : Topic → List (Entry α)) (hw : w.reader = .replied messages) :
      Steps w .deliver (delivered w messages)

theorem steps_of_step {e : Event α} (h : step w e = some w') : Steps w e w' := by
  unfold step at h
  split at h
  · split_ifs at h with hid
    simp only at h
    split at h
    · cases h
      exact .wake _ _ hid _ ‹_›
    · cases h
      exact .xadd _ _ hid ‹_›
  · split at h
    · cases h
      exact .call ‹_›
    · cases h
  · split at h
    · cases h
      exact .timeout _ ‹_›
    · cases h
  · cases h
    exact .error
  · split at h
    · cases h
      exact .deliver _ ‹_›
    · cases h

theorem TopicInv.congr (h : TopicInv w t old rest) (hstream : w'.streams t = w.streams t)
    (hcursor : w'.cursors t = w.cursors t) (hsent : w'.sent = w.sent)
    (hreader : ReaderInv w' t rest) : TopicInv w' t old rest := by
  have hlog : log w' t = log w t := by unfold log; rw [hsent]
  refine ⟨?_, ?_, ?_, hreader⟩
  · rw [hstream, hlog]; exact h.split
  · rw [hstream, hcursor]; exact h.cursor
  · rw [hcursor, hlog]; exact h.unread

theorem TopicInv.append (h : TopicInv w t old rest) {e : Entry α}
    (hid : (w.streams t).lastId < e.id) (hstream : w'.streams t = (w.streams t).xadd e hid)
    (hcursor : w'.cursors t = w.cursors t) (hsent : w'.sent = w.sent)
    (hreader : ReaderInv w' t (rest ++ [e])) : TopicInv w' t old (rest ++ [e]) := by
  have hlog : log w' t = log w t := by unfold log; rw [hsent]
  refine ⟨?_, ?_, ?_, hreader⟩
  · rw [hstream, hlog, ← List.append_assoc, ← h.split]; rfl
  · rw [hstream, hcursor]
    intro i hi
    obtain ⟨hle, hafter⟩ := h.cursor i hi
    rw [Stream.after_xadd hid hle, hafter, Stream.lastId_xadd]
    exact ⟨hle.trans hid.le, rfl⟩
  · rw [hcursor, hlog]; exact h.unread

theorem Inv.toIdle (h : Inv w) (hidle : ∀ old, w.opened = some old → ∀ t rest,
    TopicInv w t (old t) rest → w.cursors t = none → rest = []) :
    Inv { w with reader := .idle } := by
  refine ⟨fun ho => ⟨rfl, (h.before ho).2⟩, fun old ho t => ?_⟩
  obtain ⟨rest, hrest⟩ := h.after old ho t
  exact ⟨rest, hrest.congr rfl rfl rfl (hidle old ho t rest hrest)⟩

theorem TopicInv.xadd (h : TopicInv w t old rest) {e : Entry α}
    (hid : (w.streams t).lastId < e.id) (hw : ∀ ids, w.reader ≠ .blocked ids)
    (hsafe : w.cursors t ≠ none ∨ w.reader.messages t ≠ []) :
    TopicInv { w with streams := Function.update w.streams t ((w.streams t).xadd e hid) } t old
      (rest ++ [e]) := by
  have hreader := h.reader
  refine h.append hid (Function.update_self _ _ _) rfl rfl ?_
  unfold ReaderInv at hreader ⊢
  cases hr : w.reader with
  | idle =>
    rw [hr] at hsafe
    exact fun hc => absurd hc (hsafe.resolve_right fun hne => hne rfl)
  | blocked ids => exact absurd hr (hw ids)
  | replied messages =>
    rw [hr] at hreader hsafe
    exact ⟨hreader.1.trans (List.prefix_append rest [e]), fun hc hnil =>
      absurd hnil (hsafe.resolve_left fun hne => hne hc)⟩

theorem isBlocked_eq_false (hw : ∀ ids, w.reader ≠ .blocked ids) :
    w.reader.isBlocked = false := by
  cases hr : w.reader with
  | blocked ids => exact absurd hr (hw ids)
  | _ => rfl

theorem Inv.xadd (h : Inv w) {t : Topic} {e : Entry α} (hid : (w.streams t).lastId < e.id)
    (hw : ∀ ids, w.reader ≠ .blocked ids) (hsafe : Safe w (.xadd t e)) :
    Inv { w with streams := Function.update w.streams t ((w.streams t).xadd e hid) } := by
  refine ⟨h.before, fun old ho t' => ?_⟩
  obtain ⟨rest, hrest⟩ := h.after old ho t'
  by_cases ht : t' = t
  · subst ht
    refine ⟨rest ++ [e], hrest.xadd hid hw ?_⟩
    rcases hsafe with hopened | hcursor | hblocked | hmessages
    · rw [show w.opened = some old from ho] at hopened
      cases hopened
    · exact Or.inl hcursor
    · rw [isBlocked_eq_false hw] at hblocked
      cases hblocked
    · exact Or.inr hmessages
  · refine ⟨rest, hrest.congr (Function.update_of_ne ht _ _) rfl rfl ?_⟩
    have hreader := hrest.reader
    unfold ReaderInv at hreader ⊢
    cases hr : w.reader with
    | idle => rw [hr] at hreader; exact hreader
    | blocked ids => exact absurd hr (hw ids)
    | replied messages => rw [hr] at hreader; exact hreader

theorem Inv.wake (h : Inv w) {t : Topic} {e : Entry α} (hid : (w.streams t).lastId < e.id)
    {ids : Topic → ℕ} (hw : w.reader = .blocked ids) :
    Inv { w with
      streams := Function.update w.streams t ((w.streams t).xadd e hid)
      reader := serve (Function.update w.streams t ((w.streams t).xadd e hid)) ids } := by
  refine ⟨fun ho => ?_, fun old ho t' => ?_⟩
  · have hidle := (h.before ho).1
    rw [hw] at hidle
    cases hidle
  · obtain ⟨rest, hrest⟩ := h.after old ho t'
    have hreader := hrest.reader
    unfold ReaderInv at hreader
    rw [hw] at hreader
    obtain ⟨hnil, hle, hafter⟩ := hreader
    by_cases ht : t' = t
    · subst ht
      have hstream := Function.update_self t' ((w.streams t').xadd e hid) w.streams
      refine ⟨rest ++ [e], hrest.append hid hstream rfl rfl (readerInv_serve rfl ?_ ?_)⟩
      · show ids t' ≤ (Function.update w.streams t' ((w.streams t').xadd e hid) t').lastId
        rw [hstream, Stream.lastId_xadd]
        exact hle.trans hid.le
      · show (Function.update w.streams t' ((w.streams t').xadd e hid) t').after (ids t') = _
        rw [hstream, Stream.after_xadd hid hle, hafter, hnil]
    · have hstream := Function.update_of_ne ht ((w.streams t).xadd e hid) w.streams
      refine ⟨rest, hrest.congr hstream rfl rfl (readerInv_serve rfl ?_ ?_)⟩
      · show ids t' ≤ (Function.update w.streams t ((w.streams t).xadd e hid) t').lastId
        rw [hstream]
        exact hle
      · show (Function.update w.streams t ((w.streams t).xadd e hid) t').after (ids t') = _
        rw [hstream, hafter, hnil]

theorem Inv.call (h : Inv w) (hw : w.reader = .idle) :
    Inv { w with
      reader := serve w.streams (resolve w)
      opened := some (w.opened.getD fun t => (w.streams t).entries) } := by
  refine ⟨fun ho => (by cases ho), ?_⟩
  rintro old ⟨⟩ t
  cases ho : w.opened with
  | none =>
    obtain ⟨_, hcursors, hsent⟩ := h.before ho
    have hlog : log w t = [] := by unfold log; rw [hsent]; rfl
    have hinit : TopicInv w t (w.streams t).entries [] := by
      refine ⟨by rw [hlog]; simp, fun i hi => ?_, fun _ => hlog, ?_⟩
      · rw [hcursors t] at hi; cases hi
      · unfold ReaderInv; rw [hw]; exact fun _ => rfl
    exact ⟨[], hinit.call hw (by simp)⟩
  | some old =>
    obtain ⟨rest, hrest⟩ := h.after old ho t
    exact ⟨rest, hrest.call hw (by simp)⟩

theorem Inv.step {e : Event α} (h : Inv w) (hsafe : Safe w e) (hstep : step w e = some w') :
    Inv w' := by
  cases steps_of_step hstep with
  | xadd t e hid hw => exact h.xadd hid hw hsafe
  | wake t e hid ids hw => exact h.wake hid hw
  | call hw => exact h.call hw
  | timeout ids hw =>
    refine h.toIdle fun old _ t rest hrest _ => ?_
    have hreader := hrest.reader
    unfold ReaderInv at hreader
    rw [hw] at hreader
    exact hreader.1
  | error =>
    refine h.toIdle fun old _ t rest hrest hc => ?_
    have hreader := hrest.reader
    unfold ReaderInv at hreader
    cases hr : w.reader with
    | idle => rw [hr] at hreader; exact hreader hc
    | blocked ids => rw [hr] at hreader; exact hreader.1
    | replied messages =>
      rw [hr] at hreader
      exact hreader.2 hc (by simpa [hr, Reader.messages] using hsafe t hc)
  | deliver messages hw =>
    refine ⟨fun ho => ?_, fun old ho t => ?_⟩
    · rw [opened_delivered] at ho
      have hidle := (h.before ho).1
      rw [hw] at hidle
      cases hidle
    · rw [opened_delivered] at ho
      obtain ⟨rest, hrest⟩ := h.after old ho t
      exact hrest.deliver hw

theorem Inv.forwarded (h : Inv w) : Forwarded w := by
  intro old ho t
  obtain ⟨rest, hrest⟩ := h.after old ho t
  refine ⟨hrest.split ▸ List.prefix_append _ rest, fun ids hw => ?_⟩
  have hreader := hrest.reader
  unfold ReaderInv at hreader
  rw [hw] at hreader
  rw [hrest.split, hreader.1, List.append_nil]

/-! ## Lost entries -/

/-- An entry since the first call that was not broadcast and that no call will return. -/
structure Lost (w : World α) (t : Topic) (x : Entry α) : Prop where
  mem : x ∈ (w.streams t).entries
  opened : ∃ old, w.opened = some old ∧ x ∉ old t
  unsent : x ∉ log w t
  cursor : ∀ i ∈ w.cursors t, x.id ≤ i
  reader : match w.reader with
    | .idle => True
    | .blocked ids => x.id ≤ ids t
    | .replied messages => ∀ y ∈ messages t, x.id < y.id

theorem lost_serve {streams : Topic → Stream α} {ids : Topic → ℕ} {x : Entry α}
    (h : x.id ≤ ids t) : match serve streams ids with
      | .idle => True
      | .blocked ids => x.id ≤ ids t
      | .replied messages => ∀ y ∈ messages t, x.id < y.id := by
  unfold serve
  split_ifs
  · exact h
  · intro y hy
    have hafter := List.mem_of_mem_take hy
    exact h.trans_lt (of_decide_eq_true (List.mem_filter.mp hafter).2)

theorem Lost.step {x : Entry α} {e : Event α} (h : Lost w t x) (hstep : step w e = some w') :
    Lost w' t x := by
  have hreader := h.reader
  have hmem : ∀ {t'} {e : Entry α} (hid : (w.streams t').lastId < e.id),
      x ∈ (Function.update w.streams t' ((w.streams t').xadd e hid) t).entries := by
    intro t' e hid
    by_cases ht : t = t'
    · subst ht
      rw [Function.update_self]
      exact List.mem_append_left _ h.mem
    · rw [Function.update_of_ne ht]
      exact h.mem
  cases steps_of_step hstep with
  | xadd t' e hid hw => exact ⟨hmem hid, h.opened, h.unsent, h.cursor, h.reader⟩
  | wake t' e hid ids hw =>
    rw [hw] at hreader
    exact ⟨hmem hid, h.opened, h.unsent, h.cursor, lost_serve hreader⟩
  | call hw =>
    obtain ⟨old, ho, hx⟩ := h.opened
    refine ⟨h.mem, ⟨old, by rw [ho]; rfl, hx⟩, h.unsent, h.cursor, lost_serve ?_⟩
    -- the call asks for what comes after its ID, and the entry is at or before it, `$` or not
    unfold resolve
    cases hc : w.cursors t with
    | none => exact Stream.id_le_lastId _ h.mem
    | some i => exact h.cursor i hc
  | timeout ids hw => exact ⟨h.mem, h.opened, h.unsent, h.cursor, trivial⟩
  | error => exact ⟨h.mem, h.opened, h.unsent, h.cursor, trivial⟩
  | deliver messages hw =>
    rw [hw] at hreader
    refine ⟨?_, ?_, ?_, ?_, trivial⟩
    · rw [streams_delivered]; exact h.mem
    · rw [opened_delivered]; exact h.opened
    · rw [log_delivered, List.mem_append]
      rintro (hx | hx)
      · exact h.unsent hx
      · exact Nat.lt_irrefl _ (hreader x hx)
    -- the cursor only moves on to the last ID delivered, past the lost entry
    · rw [cursors_delivered]
      intro i hi
      rcases List.eq_nil_or_concat' (messages t) with hnil | ⟨l, y, hly⟩
      · rw [hnil] at hi; exact h.cursor i hi
      · rw [hly, List.getLast?_concat] at hi
        obtain rfl := Option.some.inj hi
        exact (hreader y (by rw [hly]; simp)).le

theorem Lost.not_forwarded {x : Entry α} (h : Lost w t x) {ids : Topic → ℕ}
    (hw : w.reader = .blocked ids) : ¬ Forwarded w := by
  intro hf
  obtain ⟨old, ho, hx⟩ := h.opened
  have hmem := h.mem
  rw [(hf old ho t).2 ids hw] at hmem
  exact (List.mem_append.mp hmem).elim hx h.unsent

/-- An entry that is added to a `$` stream between two calls is lost. -/
theorem Inv.lost_xadd {e : Entry α} (h : Inv w) (hid : (w.streams t).lastId < e.id)
    (hw : ∀ ids, w.reader ≠ .blocked ids) (hopened : w.opened ≠ none)
    (hnone : w.cursors t = none) (hmessages : w.reader.messages t = []) :
    Lost { w with streams := Function.update w.streams t ((w.streams t).xadd e hid) } t e := by
  obtain ⟨old, ho⟩ := Option.ne_none_iff_exists'.mp hopened
  obtain ⟨rest, hrest⟩ := h.after old ho t
  have hlog : log w t = [] := hrest.unread hnone
  refine ⟨?_, ⟨old, ho, fun hx => ?_⟩, ?_, ?_, ?_⟩
  · show e ∈ (Function.update w.streams t ((w.streams t).xadd e hid) t).entries
    rw [Function.update_self]
    exact List.mem_append_right _ (List.mem_singleton_self e)
  · have hmem : e ∈ (w.streams t).entries := by rw [hrest.split]; simp [hx]
    have hle := (w.streams t).id_le_lastId hmem
    omega
  · show e ∉ log w t
    rw [hlog]
    exact List.not_mem_nil
  · intro i hi
    rw [show w.cursors t = none from hnone] at hi
    cases hi
  · cases hr : w.reader with
    | idle => trivial
    | blocked ids => exact absurd hr (hw ids)
    | replied messages =>
      rw [hr] at hmessages
      have hnil : messages t = [] := hmessages
      intro y hy
      rw [hnil] at hy
      cases hy

/-- An entry of a `$` stream in a reply that is not read is lost. -/
theorem Inv.lost_error {messages : Topic → List (Entry α)} {x : Entry α} (h : Inv w)
    (hw : w.reader = .replied messages) (hnone : w.cursors t = none) (hx : x ∈ messages t) :
    Lost { w with reader := .idle } t x := by
  have hopened : w.opened ≠ none := fun ho => by
    have hidle := (h.before ho).1
    rw [hw] at hidle
    cases hidle
  obtain ⟨old, ho⟩ := Option.ne_none_iff_exists'.mp hopened
  obtain ⟨rest, hrest⟩ := h.after old ho t
  have hreader := hrest.reader
  unfold ReaderInv at hreader
  rw [hw] at hreader
  have hxrest : x ∈ rest := hreader.1.subset hx
  have hlog : log w t = [] := hrest.unread hnone
  refine ⟨?_, ⟨old, ho, fun hold => ?_⟩, ?_, ?_, trivial⟩
  · show x ∈ (w.streams t).entries
    rw [hrest.split]
    exact List.mem_append_right _ hxrest
  · have hnodup := (w.streams t).nodup
    rw [hrest.split, hlog, List.append_nil] at hnodup
    exact (List.nodup_append.mp hnodup).2.2 x hold x hxrest rfl
  · show x ∉ log w t
    rw [hlog]
    exact List.not_mem_nil
  · intro i hi
    rw [show w.cursors t = none from hnone] at hi
    cases hi

/-- An event that is not safe loses an entry. -/
theorem Inv.exists_lost {e : Event α} (h : Inv w) (hsafe : ¬ Safe w e)
    (hstep : Gateway.step w e = some w') : ∃ t x, Lost w' t x := by
  cases steps_of_step hstep with
  | xadd t e hid hw =>
    unfold Safe at hsafe
    push Not at hsafe
    obtain ⟨hopened, hnone, _, hmessages⟩ := hsafe
    exact ⟨t, e, h.lost_xadd hid hw (fun ho => hopened (by rw [ho]; rfl)) hnone hmessages⟩
  | wake t e hid ids hw =>
    exact absurd (Or.inr (Or.inr (Or.inl (by rw [hw]; rfl)))) hsafe
  | error =>
    unfold Safe at hsafe
    push Not at hsafe
    obtain ⟨t, hnone, hne⟩ := hsafe
    cases hw : w.reader with
    | idle => rw [hw] at hne; exact absurd rfl hne
    | blocked ids => rw [hw] at hne; exact absurd rfl hne
    | replied messages =>
      rw [hw] at hne
      obtain ⟨x, hx⟩ := List.exists_mem_of_ne_nil _ hne
      exact ⟨t, x, h.lost_error hw hnone hx⟩
  | call hw => exact absurd trivial hsafe
  | timeout ids hw => exact absurd trivial hsafe
  | deliver messages hw => exact absurd trivial hsafe

/-! ## Every run -/

theorem Inv.start (streams : Topic → Stream α) : Inv (World.start streams) :=
  ⟨fun _ => ⟨rfl, fun _ => rfl, rfl⟩, fun _ ho => by cases ho⟩

/-- **Forwarding.** Over a run of safe events every entry since the first call is broadcast once
and in order. After an event that is not safe, an entry is missing whenever the reader has caught
up. -/
theorem forwarded_iff {streams : Topic → Stream α} {es : List (Event α)} {w : World α}
    (h : Runs.run step (World.start streams) es = some w) :
    (Runs.Along step Safe (World.start streams) es → Forwarded w) ∧
    (¬ Runs.Along step Safe (World.start streams) es →
      ∀ es' w' ids, Runs.run step w es' = some w' → w'.reader = .blocked ids →
        ¬ Forwarded w') := by
  have hsafe : ∀ {es w}, Runs.run step (World.start streams) es = some w →
      Runs.Along step Safe (World.start streams) es → Inv w := fun hrun halong =>
    Runs.run_invariant_along (fun _ _ _ hw hs hstep => hw.step hs hstep) (Inv.start streams)
      halong hrun
  refine ⟨fun halong => (hsafe h halong).forwarded, fun hnot es' w' ids hrun hw' => ?_⟩
  obtain ⟨es₁, e, es₂, w₁, w₂, _, h₁, halong, he, h₂, hrest⟩ := Runs.exists_of_not_along h hnot
  obtain ⟨t, x, hlost⟩ := (hsafe h₁ halong).exists_lost he h₂
  have hlost_run : ∀ {v v' es}, Lost v t x → Runs.run step v es = some v' → Lost v' t x :=
    fun hv hv' => Runs.run_invariant (fun _ _ _ hu hs => Lost.step hu hs) hv hv'
  exact (hlost_run (hlost_run hlost hrest) hrun).not_forwarded hw'

/-- A candle and then a portfolio that calls wait for. -/
theorem forwarded_iff_waited : ∃ w, Runs.run step (World.start fun _ => (Stream.empty : Stream ℕ))
    [.call, .xadd .price ⟨1, 7⟩, .deliver, .call, .xadd .portfolio ⟨1, 8⟩, .deliver, .call] =
      some w ∧ Forwarded w := by
  obtain ⟨w, hw⟩ := Option.isSome_iff_exists.mp (by decide +kernel :
    (Runs.run step (World.start fun _ => (Stream.empty : Stream ℕ))
      [.call, .xadd .price ⟨1, 7⟩, .deliver, .call, .xadd .portfolio ⟨1, 8⟩, .deliver,
        .call]).isSome)
  exact ⟨w, hw, (forwarded_iff hw).1 (by decide +kernel)⟩

/-- A portfolio that is published while the gateway broadcasts a candle. -/
def busyGateway : List (Event ℕ) :=
  [.call, .xadd .price ⟨1, 7⟩, .xadd .portfolio ⟨1, 8⟩, .deliver, .call]

/-- The second call starts at the last id of the portfolio stream, after that entry. -/
theorem busyGateway_loses_portfolio :
    ¬ ∀ (streams : Topic → Stream ℕ) (es : List (Event ℕ)) (w : World ℕ),
      Runs.run step (World.start streams) es = some w → Forwarded w := by
  intro h
  have hview : (Runs.run step (World.start fun _ => Stream.empty) busyGateway).map (fun w =>
      ((w.streams .portfolio).entries, log w .portfolio, w.opened.map fun old => old .portfolio,
        w.reader.isBlocked)) = some ([⟨1, 8⟩], [], some [], true) := by decide +kernel
  obtain ⟨w, hw, hshow⟩ := Option.map_eq_some_iff.mp hview
  simp only [Prod.mk.injEq] at hshow
  obtain ⟨hentries, hlog, hopened, hblocked⟩ := hshow
  obtain ⟨old, ho, hold⟩ := Option.map_eq_some_iff.mp hopened
  have hforwarded := (h _ _ w hw old ho .portfolio).2
  rw [hentries, hlog, hold] at hforwarded
  cases hr : w.reader with
  | blocked ids => exact absurd (hforwarded ids hr) (by decide)
  | idle => rw [hr] at hblocked; cases hblocked
  | replied messages => rw [hr] at hblocked; cases hblocked

end PortfolioEngine.Gateway
