import MahjongAI.Runs
import Mathlib.Data.List.Basic
import Mathlib.Data.Nat.Basic
import Mathlib.Logic.Relation

/-!
# Closing the Client

`client_impl` is driven from two sides: by the user, who calls `connect`, `close` and
`sync_close`, and by the network thread, which runs the handlers of websocketpp, of the
reconnect timer and of the io service. `Client.step` takes one of these calls or handlers
at a time, in any order; a call that joins the network thread takes two steps, since the
handlers go on until the loop has ended.

`on_fail` and `on_close` call the reconnect listener before they arm the timer, and
`timeout_reconnect` calls the reconnecting listener before `connect_impl`. The user can act
there, on this thread or on another one, so such a handler takes two steps as well: it stops
at the call, and goes on when the listener has returned. The other listeners are called at
the end of a handler. A `connect` or `sync_close` of a listener that would join the network
thread, which is its own, throws and is left out.

What the transport may do is in the state: an attempt that was started is in `attempts`
until `on_open` or `on_fail` takes it out, an open connection is in `connections` until
`on_close` does, and a wait on the timer that has expired is counted in `due` until its
handler has run, whatever has become of the timer since.

## Main results

* `Client.Inv`: at any time there is at most one queued attempt, attempt, connection or
  pending reconnect, and none when the network thread has left its loop.
* `Client.final_of_run`: in a run that closes only while no attempt is under way, a closed
  client neither opens again nor arms its timer before the next `connect`.
* `Client.reopens`: after a close during an attempt, the client can open again or arm its
  timer without a `connect`, so the condition on the run cannot be weakened.
* `Client.not_final`: a `close` during the first attempt that is followed by `on_open`.
-/

open Runs

namespace MahjongAI

/-- `con_state`. -/
inductive ConState
  | opening
  | opened
  | closing
  | closed
  deriving DecidableEq

/-- The handlers of the client that can wait in the io service. -/
inductive Posted
  | connectImpl
  | closeImpl
  deriving DecidableEq

/-- The user calls that join the network thread. -/
inductive Joining
  | connect
  | syncClose
  deriving DecidableEq

/-- The listeners that a handler calls before it is done. -/
inductive Calling
  | reconnect
  | reconnecting
  deriving DecidableEq

/-- The state of `client_impl`, with what the io service and websocketpp hold for it. -/
structure Client where
  /-- `m_con_state`. -/
  conState : ConState
  /-- `m_con`: the connection that the handle stands for, unless it has expired. -/
  con : Option ℕ
  /-- `m_reconn_made`. -/
  reconnMade : ℕ
  /-- `m_reconn_attempts`. -/
  reconnAttempts : ℕ
  /-- `m_reconn_timer` has a pending wait. -/
  timer : Bool
  /-- How often the timer has been armed. -/
  armed : ℕ
  /-- Calls of `timeout_reconnect` that are due: waits that have expired. -/
  due : ℕ
  /-- Handlers that wait in the io service, the first to run in front. -/
  posted : List Posted
  /-- Attempts that have been started and have neither opened nor failed. -/
  attempts : List ℕ
  /-- Connections that have opened and have not closed. -/
  connections : List ℕ
  /-- Connections that the client has asked websocketpp to close. -/
  asked : List ℕ
  /-- `m_network_thread` holds a thread. -/
  thread : Bool
  /-- The thread is in `m_client.run()`. -/
  running : Bool
  /-- The user call that waits in `join`. -/
  joining : Option Joining
  /-- The listener that the network thread is in, with the rest of the handler to come. -/
  calling : Option Calling
  /-- The number of attempts so far, which names the next one. -/
  next : ℕ
  deriving DecidableEq

namespace Client

/-- The client as it is constructed, with the given `m_reconn_attempts`. -/
def init (reconnAttempts : ℕ) : Client where
  conState := .closed
  con := none
  reconnMade := 0
  reconnAttempts := reconnAttempts
  timer := false
  armed := 0
  due := 0
  posted := []
  attempts := []
  connections := []
  asked := []
  thread := false
  running := false
  joining := none
  calling := none
  next := 0

/-! ### The timer -/

/-- `m_reconn_timer->cancel()` and `reset()`: a pending wait is given up; one that has
expired is not. -/
def cancelTimer (s : Client) : Client :=
  { s with timer := false }

/-- A new `m_reconn_timer` with an `async_wait`; the wait on the old timer is given up. -/
def armTimer (s : Client) : Client :=
  { s with timer := true, armed := s.armed + 1 }

/-- The end of `on_fail` and of an abnormal `on_close`, up to the call of
`m_reconnect_listener` if there is one. -/
def reconnect (s : Client) : Client :=
  if s.reconnMade < s.reconnAttempts then { s with calling := some .reconnect } else s

/-! ### User calls -/

/-- `connect` after the join. -/
def startLoop (s : Client) : Client :=
  { s with
    conState := .opening
    reconnMade := 0
    posted := s.posted ++ [.connectImpl]
    thread := true
    running := true }

/-- A call starts to wait for the network thread. Only one call may join a thread. -/
def join (s : Client) (call : Joining) : Option Client :=
  match s.joining with
  | none => some { s with joining := some call }
  | some _ => none

/-- `connect`, up to its join if it has one. -/
def connect (s : Client) : Option Client :=
  if s.thread then
    if s.conState = .closing ∨ s.conState = .closed then s.cancelTimer.join .connect
    else some s.cancelTimer
  else some s.cancelTimer.startLoop

/-- `close`. -/
def close (s : Client) : Client :=
  { s with conState := .closing, posted := s.posted ++ [.closeImpl] }

/-- `sync_close`, up to its join if it has one. -/
def syncClose (s : Client) : Option Client :=
  if s.thread then s.close.join .syncClose else some s.close

/-- The network thread has ended: the call that waits for it goes on. -/
def joined (s : Client) : Option Client :=
  match s.running, s.joining with
  | false, some .connect => some { s with joining := none, thread := false }.startLoop
  | false, some .syncClose => some { s with joining := none, thread := false }
  | _, _ => none

/-! ### Handlers -/

/-- `connect_impl`; `made` says whether `get_connection` returned a connection. -/
def connectImpl (s : Client) (made : Bool) : Client :=
  if made then { s with attempts := s.attempts ++ [s.next], next := s.next + 1 } else s

/-- `close_impl`. -/
def closeImpl (s : Client) : Client :=
  match s.con with
  | none => s.cancelTimer
  | some c => { s.cancelTimer with asked := s.asked ++ [c] }

/-- The io service runs the first handler that waits in it. -/
def runPosted (s : Client) (made : Bool) : Option Client :=
  match s.posted with
  | [] => none
  | .connectImpl :: posted => some ({ s with posted := posted }.connectImpl made)
  | .closeImpl :: posted => some { s with posted := posted }.closeImpl

/-- The wait on the timer expires. -/
def expire (s : Client) : Option Client :=
  if s.timer then some { s with timer := false, due := s.due + 1 } else none

/-- `timeout_reconnect` after a wait that was not given up, up to the call of
`m_reconnecting_listener` if there is one. -/
def timeoutReconnect (s : Client) : Option Client :=
  match s.due with
  | 0 => none
  | due + 1 =>
      if s.conState = .closed then
        some { s with
          due := due
          conState := .opening
          reconnMade := s.reconnMade + 1
          calling := some .reconnecting }
      else some { s with due := due }

/-- The listener returns, and its handler goes on. After `m_reconnecting_listener`, `dispatch`
on the network thread runs `connect_impl` at once; `made` is for that. -/
def resume (s : Client) (made : Bool) : Option Client :=
  match s.calling with
  | none => none
  | some .reconnect => some { s with calling := none }.armTimer
  | some .reconnecting => some ({ s with calling := none }.connectImpl made)

/-- `on_open`. -/
def onOpen (s : Client) (c : ℕ) : Option Client :=
  if c ∈ s.attempts then
    some { s with
      attempts := s.attempts.erase c
      connections := s.connections ++ [c]
      conState := .opened
      con := some c
      reconnMade := 0 }
  else none

/-- `on_fail`, up to the call of `m_reconnect_listener` if there is one. -/
def onFail (s : Client) (c : ℕ) : Option Client :=
  if c ∈ s.attempts then
    some { s with
      attempts := s.attempts.erase c
      con := none
      conState := .closed }.reconnect
  else none

/-- `on_close`, up to the call of `m_reconnect_listener` if there is one; `normal` says
whether the local close code is `close::status::normal`. -/
def onClose (s : Client) (c : ℕ) (normal : Bool) : Option Client :=
  if c ∈ s.connections then
    let t : Client :=
      { s with
        connections := s.connections.erase c
        con := none
        conState := .closed }
    if normal ∨ s.conState = .closing then some t else some t.reconnect
  else none

/-- `close` in a listener: on the network thread `dispatch` runs `close_impl` at once. -/
def closeInListener (s : Client) : Client :=
  { s with conState := .closing }.closeImpl

/-- `m_client.run()` returns: no work is left. -/
def loopEnd (s : Client) : Option Client :=
  if s.posted = [] ∧ s.timer = false ∧ s.due = 0 ∧ s.attempts = [] ∧ s.connections = [] then
    some { s with running := false }
  else none

/-! ### Steps -/

/-- A user call, a handler of the network thread, or a move of the transport. `closeImpl`
is the call of `close_impl` on the network thread itself: after a close frame, a missing
pong or a bad handshake. -/
inductive Event
  | connect
  | close
  | syncClose
  | joined
  | closeInListener
  | runPosted (made : Bool)
  | expire
  | timeoutReconnect
  | resume (made : Bool)
  | onOpen (c : ℕ)
  | onFail (c : ℕ)
  | onClose (c : ℕ) (normal : Bool)
  | closeImpl
  | loopEnd
  deriving DecidableEq

/-- What the network thread does while it is in its loop, in a listener or not. -/
def inLoop (s : Client) (t : Option Client) : Option Client :=
  if s.running then t else none

/-- What it does between two handlers. -/
def network (s : Client) (t : Option Client) : Option Client :=
  if s.calling = none then s.inLoop t else none

/-- One step. -/
def step (s : Client) : Event → Option Client
  | .connect => s.connect
  | .close => some s.close
  | .syncClose => s.syncClose
  | .joined => s.joined
  | .closeInListener => s.inLoop (some s.closeInListener)
  | .runPosted made => s.network (s.runPosted made)
  | .expire => s.network s.expire
  | .timeoutReconnect => s.network s.timeoutReconnect
  | .resume made => s.inLoop (s.resume made)
  | .onOpen c => s.network (s.onOpen c)
  | .onFail c => s.network (s.onFail c)
  | .onClose c normal => s.network (s.onClose c normal)
  | .closeImpl => s.network (some s.closeImpl)
  | .loopEnd => s.network s.loopEnd

/-- A client with what has happened to it since the last call of `connect`: it was closed,
and the timer was armed after that. -/
structure Watched where
  client : Client
  final : Bool
  rearmed : Bool
  deriving DecidableEq

/-- Before the first call. -/
def Watched.init (reconnAttempts : ℕ) : Watched :=
  ⟨.init reconnAttempts, false, false⟩

/-- One step, with what it means for the last `close`. -/
def Watched.step (w : Watched) (e : Event) : Option Watched :=
  (w.client.step e).map fun t =>
    match e with
    | .connect => ⟨t, false, false⟩
    | .close => ⟨t, true, w.rearmed⟩
    | .syncClose => ⟨t, true, w.rearmed⟩
    | .closeInListener => ⟨t, true, w.rearmed⟩
    | _ => ⟨t, w.final, w.rearmed || w.final && w.client.armed < t.armed⟩

/-- The client is final: since it was closed it is neither opening nor open, and it has
not armed the timer. -/
def Watched.StaysClosed (w : Watched) : Prop :=
  w.final = true →
    w.client.conState ≠ .opening ∧ w.client.conState ≠ .opened ∧ w.rearmed = false

/-- No attempt is under way: none is opening, none is queued, no call of `connect` waits for
the last loop to end, and no handler is in the reconnect or the reconnecting listener. -/
def NoAttempt (s : Client) : Prop :=
  s.attempts = [] ∧ Posted.connectImpl ∉ s.posted ∧ s.joining ≠ some .connect ∧
    s.calling = none

instance decidableNoAttempt (s : Client) : Decidable s.NoAttempt :=
  inferInstanceAs (Decidable (_ ∧ _ ∧ _ ∧ _))

/-- The event is a call of `close` or of `sync_close`, on whatever thread. -/
def Event.isClose : Event → Bool
  | .close => true
  | .syncClose => true
  | .closeInListener => true
  | _ => false

/-- The user closes only while no attempt is under way. -/
def Quiet (w : Watched) (e : Event) : Prop :=
  e.isClose = true → w.client.NoAttempt

instance decidableQuiet (w : Watched) (e : Event) : Decidable (Quiet w e) :=
  inferInstanceAs (Decidable (_ → _))

/-! ### One connection at a time -/

/-- What can still lead to an open connection, or is one. -/
def pending (s : Client) : ℕ :=
  s.timer.toNat + s.due + s.posted.count .connectImpl + s.attempts.length +
    s.connections.length + s.calling.toList.length

/-- **The invariant**: one thing is pending at most, and nothing when the loop has ended. -/
structure Inv (s : Client) : Prop where
  one : s.pending ≤ 1
  ended : s.running = false → s.pending = 0
  noThread : s.thread = false → s.running = false

theorem inv_init (n : ℕ) : (init n).Inv :=
  ⟨Nat.zero_le 1, fun _ => rfl, fun _ => rfl⟩

/-- What a handler other than the end of the loop does to what is pending: it can pass it
on or drop it. -/
structure Handled (s t : Client) : Prop where
  pending_le : t.pending ≤ s.pending
  running_eq : t.running = s.running
  thread_eq : t.thread = s.thread

/-- A handler keeps the invariant. -/
theorem Inv.handled {s t : Client} (h : s.Inv) (ht : s.Handled t) : t.Inv where
  one := le_trans ht.pending_le h.one
  ended hrunning :=
    Nat.le_zero.mp (le_of_le_of_eq ht.pending_le (h.ended (ht.running_eq ▸ hrunning)))
  noThread hthread := by
    rw [ht.running_eq]
    exact h.noThread (ht.thread_eq ▸ hthread)

theorem Handled.trans {s t u : Client} (hst : s.Handled t) (htu : t.Handled u) :
    s.Handled u where
  pending_le := le_trans htu.pending_le hst.pending_le
  running_eq := htu.running_eq.trans hst.running_eq
  thread_eq := htu.thread_eq.trans hst.thread_eq

@[simp] theorem length_toList_some (call : Calling) : (some call).toList.length = 1 := rfl

theorem handled_cancelTimer (s : Client) : s.Handled s.cancelTimer where
  pending_le := by
    simp only [pending, cancelTimer, Bool.toNat_false]
    omega
  running_eq := rfl
  thread_eq := rfl

theorem handled_closeImpl (s : Client) : s.Handled s.closeImpl := by
  refine s.handled_cancelTimer.trans ?_
  cases hcon : s.con with
  | none =>
      rw [closeImpl, hcon]
      exact ⟨le_rfl, rfl, rfl⟩
  | some c =>
      rw [closeImpl, hcon]
      exact ⟨le_rfl, rfl, rfl⟩

/-- An attempt that is made takes the place of what was dropped for it. -/
theorem handled_connectImpl {s t : Client} (made : Bool) (hpending : t.pending < s.pending)
    (hrunning : t.running = s.running) (hthread : t.thread = s.thread) :
    s.Handled (t.connectImpl made) := by
  cases made with
  | false => exact ⟨le_of_lt hpending, hrunning, hthread⟩
  | true =>
      refine ⟨?_, hrunning, hthread⟩
      simp only [pending, connectImpl, if_true, List.length_append, List.length_singleton]
        at hpending ⊢
      omega

/-- So does a handler that stops at its listener. -/
theorem handled_reconnect {s t : Client} (hpending : t.pending < s.pending)
    (hrunning : t.running = s.running) (hthread : t.thread = s.thread) :
    s.Handled t.reconnect := by
  by_cases hmade : t.reconnMade < t.reconnAttempts
  · rw [reconnect, if_pos hmade]
    refine ⟨?_, hrunning, hthread⟩
    simp only [pending, length_toList_some] at hpending ⊢
    omega
  · rw [reconnect, if_neg hmade]
    exact ⟨le_of_lt hpending, hrunning, hthread⟩

theorem handled_runPosted {s t : Client} {made : Bool} (h : s.runPosted made = some t) :
    s.Handled t := by
  rw [runPosted] at h
  cases hposted : s.posted with
  | nil => simp [hposted] at h
  | cons first posted =>
      cases first with
      | connectImpl =>
          obtain rfl : _ = t := by simpa [hposted] using h
          refine handled_connectImpl made ?_ rfl rfl
          simp only [pending, hposted, List.count_cons_self]
          omega
      | closeImpl =>
          obtain rfl : _ = t := by simpa [hposted] using h
          have hdrop : s.Handled { s with posted := posted } :=
            ⟨by simp [pending, hposted], rfl, rfl⟩
          exact hdrop.trans (handled_closeImpl _)

theorem handled_expire {s t : Client} (h : s.expire = some t) : s.Handled t := by
  rw [expire] at h
  by_cases htimer : s.timer = true
  · obtain rfl : _ = t := by simpa [htimer] using h
    refine ⟨?_, rfl, rfl⟩
    simp only [pending, htimer, Bool.toNat_true, Bool.toNat_false]
    omega
  · simp [htimer] at h

theorem handled_timeoutReconnect {s t : Client} (h : s.timeoutReconnect = some t) :
    s.Handled t := by
  rw [timeoutReconnect] at h
  cases hdue : s.due with
  | zero => simp [hdue] at h
  | succ due =>
      by_cases hclosed : s.conState = .closed
      · obtain rfl : _ = t := by simpa [hdue, hclosed] using h
        refine ⟨?_, rfl, rfl⟩
        simp only [pending, hdue, length_toList_some]
        omega
      · obtain rfl : _ = t := by simpa [hdue, hclosed] using h
        refine ⟨?_, rfl, rfl⟩
        simp only [pending, hdue]
        omega

/-- The rest of a handler takes the place of the call. -/
theorem handled_resume {s t : Client} {made : Bool} (h : s.resume made = some t) :
    s.Handled t := by
  rw [resume] at h
  cases hcalling : s.calling with
  | none => simp [hcalling] at h
  | some call =>
      have hlt : pending { s with calling := none } < s.pending := by
        simp only [pending, hcalling, Option.toList_none, List.length_nil, length_toList_some]
        omega
      cases call with
      | reconnect =>
          obtain rfl : _ = t := by simpa [hcalling] using h
          refine ⟨?_, rfl, rfl⟩
          simp only [pending, armTimer, Bool.toNat_true] at hlt ⊢
          omega
      | reconnecting =>
          obtain rfl : _ = t := by simpa [hcalling] using h
          exact handled_connectImpl made hlt rfl rfl

theorem handled_onOpen {s t : Client} {c : ℕ} (h : s.onOpen c = some t) : s.Handled t := by
  rw [onOpen] at h
  by_cases hc : c ∈ s.attempts
  · obtain rfl : _ = t := by simpa [hc] using h
    refine ⟨?_, rfl, rfl⟩
    have hlength := List.length_erase_add_one hc
    simp only [pending, List.length_append, List.length_singleton]
    omega
  · simp [hc] at h

theorem handled_onFail {s t : Client} {c : ℕ} (h : s.onFail c = some t) : s.Handled t := by
  rw [onFail] at h
  by_cases hc : c ∈ s.attempts
  · obtain rfl : _ = t := by simpa [hc] using h
    refine handled_reconnect ?_ rfl rfl
    have hlength := List.length_erase_add_one hc
    simp only [pending]
    omega
  · simp [hc] at h

theorem handled_onClose {s t : Client} {c : ℕ} {normal : Bool}
    (h : s.onClose c normal = some t) : s.Handled t := by
  rw [onClose] at h
  by_cases hc : c ∈ s.connections
  · have hlength := List.length_erase_add_one hc
    have hlt : pending { s with
        connections := s.connections.erase c, con := none, conState := .closed } <
          s.pending := by
      simp only [pending]
      omega
    by_cases hnormal : normal = true ∨ s.conState = .closing
    · obtain rfl : _ = t := by simpa [hc, hnormal] using h
      exact ⟨le_of_lt hlt, rfl, rfl⟩
    · obtain rfl : _ = t := by simpa [hc, hnormal] using h
      exact handled_reconnect hlt rfl rfl
  · simp [hc] at h

theorem inv_startLoop {s : Client} (h : s.pending = 0) : s.startLoop.Inv where
  one := by
    simp only [pending, startLoop, List.count_append, List.count_singleton_self] at h ⊢
    omega
  ended hrunning := absurd hrunning (by simp [startLoop])
  noThread hthread := absurd hthread (by simp [startLoop])

theorem handled_join {s t : Client} {call : Joining} (h : s.join call = some t) :
    s.Handled t := by
  rw [join] at h
  cases hjoining : s.joining with
  | none =>
      obtain rfl : _ = t := by simpa [hjoining] using h
      exact ⟨le_rfl, rfl, rfl⟩
  | some call => simp [hjoining] at h

theorem handled_close (s : Client) : s.Handled s.close :=
  ⟨by simp [pending, close], rfl, rfl⟩

theorem handled_closeInListener (s : Client) : s.Handled s.closeInListener := by
  have hclosing : s.Handled { s with conState := .closing } := ⟨le_rfl, rfl, rfl⟩
  exact hclosing.trans (handled_closeImpl _)

theorem Inv.connect {s t : Client} (h : s.Inv) (hstep : s.connect = some t) : t.Inv := by
  rw [Client.connect] at hstep
  have hcancel := h.handled s.handled_cancelTimer
  by_cases hthread : s.thread = true
  · by_cases hstate : s.conState = .closing ∨ s.conState = .closed
    · rw [if_pos hthread, if_pos hstate] at hstep
      exact hcancel.handled (handled_join hstep)
    · rw [if_pos hthread, if_neg hstate] at hstep
      obtain rfl := Option.some.inj hstep
      exact hcancel
  · rw [if_neg hthread] at hstep
    obtain rfl := Option.some.inj hstep
    exact inv_startLoop (hcancel.ended (h.noThread (by simpa using hthread)))

theorem Inv.syncClose {s t : Client} (h : s.Inv) (hstep : s.syncClose = some t) : t.Inv := by
  rw [Client.syncClose] at hstep
  have hclose := h.handled s.handled_close
  by_cases hthread : s.thread = true
  · rw [if_pos hthread] at hstep
    exact hclose.handled (handled_join hstep)
  · rw [if_neg hthread] at hstep
    obtain rfl := Option.some.inj hstep
    exact hclose

theorem Inv.joined {s t : Client} (h : s.Inv) (hstep : s.joined = some t) : t.Inv := by
  rw [Client.joined] at hstep
  split at hstep
  · rename_i hrunning hjoining
    obtain rfl := Option.some.inj hstep
    exact inv_startLoop (h.ended hrunning)
  · rename_i hrunning hjoining
    obtain rfl := Option.some.inj hstep
    exact ⟨h.one, fun _ => h.ended hrunning, fun _ => hrunning⟩
  · exact absurd hstep (by simp)

theorem Inv.loopEnd {s t : Client} (h : s.Inv) (hcalling : s.calling = none)
    (hstep : s.loopEnd = some t) : t.Inv := by
  rw [Client.loopEnd] at hstep
  split at hstep
  · rename_i hidle
    obtain ⟨hposted, htimer, hdue, hattempts, hconnections⟩ := hidle
    obtain rfl := Option.some.inj hstep
    exact ⟨h.one, fun _ => by simp [pending, *], fun _ => rfl⟩
  · exact absurd hstep (by simp)

theorem inLoop_eq_some {s t : Client} {o : Option Client} (h : s.inLoop o = some t) :
    s.running = true ∧ o = some t := by
  rw [inLoop] at h
  by_cases hrunning : s.running = true
  · exact ⟨hrunning, by simpa [hrunning] using h⟩
  · simp [hrunning] at h

theorem network_eq_some {s t : Client} {o : Option Client} (h : s.network o = some t) :
    s.calling = none ∧ o = some t := by
  rw [network] at h
  by_cases hcalling : s.calling = none
  · rw [if_pos hcalling] at h
    exact ⟨hcalling, (inLoop_eq_some h).2⟩
  · simp [hcalling] at h

/-- **Every step keeps the invariant.** -/
theorem Inv.step {s t : Client} (h : s.Inv) {e : Event} (hstep : s.step e = some t) :
    t.Inv := by
  cases e with
  | connect => exact h.connect hstep
  | close =>
      obtain rfl := Option.some.inj hstep
      exact h.handled s.handled_close
  | syncClose => exact h.syncClose hstep
  | joined => exact h.joined hstep
  | closeInListener =>
      obtain rfl := Option.some.inj (inLoop_eq_some hstep).2
      exact h.handled s.handled_closeInListener
  | runPosted made => exact h.handled (handled_runPosted (network_eq_some hstep).2)
  | expire => exact h.handled (handled_expire (network_eq_some hstep).2)
  | timeoutReconnect =>
      exact h.handled (handled_timeoutReconnect (network_eq_some hstep).2)
  | resume made => exact h.handled (handled_resume (inLoop_eq_some hstep).2)
  | onOpen c => exact h.handled (handled_onOpen (network_eq_some hstep).2)
  | onFail c => exact h.handled (handled_onFail (network_eq_some hstep).2)
  | onClose c normal => exact h.handled (handled_onClose (network_eq_some hstep).2)
  | closeImpl =>
      obtain rfl := Option.some.inj (network_eq_some hstep).2
      exact h.handled s.handled_closeImpl
  | loopEnd =>
      obtain ⟨hcalling, hend⟩ := network_eq_some hstep
      exact h.loopEnd hcalling hend

/-! ### A closed client -/

/-- The client after a `close` that found no attempt under way: no attempt is under way,
and once `on_close` has been, nothing is pending at all. -/
structure Settled (s : Client) : Prop where
  noAttempt : s.NoAttempt
  state : s.conState = .closing ∨ s.conState = .closed ∧ s.pending = 0

/-- The step from `s` to `t` leaves the client settled and arms no timer. -/
structure Rests (s t : Client) : Prop where
  settled : t.Settled
  armed_eq : t.armed = s.armed

/-- A settled client has no attempt that could open or fail. -/
theorem Settled.not_mem_attempts {s : Client} (h : s.Settled) (c : ℕ) : c ∉ s.attempts := by
  rw [h.noAttempt.1]
  exact List.not_mem_nil

/-- Closing a client without an attempt settles it. -/
theorem settled_close {s : Client} (h : s.NoAttempt) : s.close.Settled where
  noAttempt := ⟨h.1, by simpa [close] using h.2.1, h.2.2⟩
  state := .inl rfl

theorem settled_closeInListener {s : Client} (h : s.NoAttempt) : s.closeInListener.Settled := by
  rw [closeInListener, closeImpl]
  cases s.con with
  | none => exact ⟨h, .inl rfl⟩
  | some c => exact ⟨h, .inl rfl⟩

theorem settled_syncClose {s t : Client} (h : s.NoAttempt) (hstep : s.syncClose = some t) :
    t.Settled := by
  have hclose := settled_close h
  rw [syncClose] at hstep
  by_cases hthread : s.thread = true
  · rw [if_pos hthread, join] at hstep
    split at hstep
    · obtain rfl := Option.some.inj hstep
      obtain ⟨hattempts, hqueued, -, hcalling⟩ := hclose.noAttempt
      exact ⟨⟨hattempts, hqueued, by simp, hcalling⟩, hclose.state⟩
    · exact absurd hstep (by simp)
  · rw [if_neg hthread] at hstep
    obtain rfl := Option.some.inj hstep
    exact hclose

/-- Closing a client without an attempt settles it, whatever call it is. -/
theorem settled_of_isClose {s t : Client} {e : Event} (h : s.NoAttempt)
    (hclose : e.isClose = true) (hstep : s.step e = some t) : t.Settled := by
  cases e with
  | close =>
      obtain rfl := Option.some.inj hstep
      exact settled_close h
  | syncClose => exact settled_syncClose h hstep
  | closeInListener =>
      obtain rfl := Option.some.inj (inLoop_eq_some hstep).2
      exact settled_closeInListener h
  | _ => exact absurd hclose (by simp [Event.isClose])

theorem Settled.joined {s t : Client} (h : s.Settled) (hstep : s.joined = some t) :
    s.Rests t := by
  rw [Client.joined] at hstep
  split at hstep
  · rename_i hjoining
    exact absurd hjoining h.noAttempt.2.2.1
  · obtain rfl := Option.some.inj hstep
    obtain ⟨hattempts, hqueued, -, hcalling⟩ := h.noAttempt
    exact ⟨⟨⟨hattempts, hqueued, by simp, hcalling⟩, h.state⟩, rfl⟩
  · exact absurd hstep (by simp)

/-- `close_impl` does not touch the state. -/
theorem Settled.closeImpl {s : Client} (h : s.Settled) : s.Rests s.closeImpl := by
  have hstate := h.state.imp_right fun hs =>
    And.intro hs.1 (Nat.le_zero.mp (le_of_le_of_eq s.handled_closeImpl.pending_le hs.2))
  revert hstate
  rw [Client.closeImpl]
  cases s.con with
  | none => exact fun hstate => ⟨⟨h.noAttempt, hstate⟩, rfl⟩
  | some c => exact fun hstate => ⟨⟨h.noAttempt, hstate⟩, rfl⟩

theorem Settled.runPosted {s t : Client} {made : Bool} (h : s.Settled)
    (hstep : s.runPosted made = some t) : s.Rests t := by
  rw [Client.runPosted] at hstep
  have hqueue := h.noAttempt.2.1
  cases hposted : s.posted with
  | nil => simp [hposted] at hstep
  | cons first posted =>
      rw [hposted] at hqueue
      cases first with
      | connectImpl => exact absurd List.mem_cons_self hqueue
      | closeImpl =>
          obtain rfl : _ = t := by simpa [hposted] using hstep
          have hdrop : Settled { s with posted := posted } :=
            ⟨⟨h.noAttempt.1, fun hmem => hqueue (List.mem_cons_of_mem _ hmem), h.noAttempt.2.2⟩,
              by simpa [pending, hposted] using h.state⟩
          exact ⟨hdrop.closeImpl.settled, hdrop.closeImpl.armed_eq⟩

/-- A wait that expires was pending, so the client is still closing. -/
theorem Settled.expire {s t : Client} (h : s.Settled) (hstep : s.expire = some t) :
    s.Rests t := by
  rw [Client.expire] at hstep
  by_cases htimer : s.timer = true
  · obtain rfl : _ = t := by simpa [htimer] using hstep
    refine ⟨⟨h.noAttempt, .inl ?_⟩, rfl⟩
    refine h.state.resolve_right fun hs => ?_
    have hzero := hs.2
    simp only [pending, htimer, Bool.toNat_true] at hzero
    omega
  · simp [htimer] at hstep

/-- The handler of a wait that was pending finds the client closing, and does nothing. -/
theorem Settled.timeoutReconnect {s t : Client} (h : s.Settled)
    (hstep : s.timeoutReconnect = some t) : s.Rests t := by
  rw [Client.timeoutReconnect] at hstep
  cases hdue : s.due with
  | zero => simp [hdue] at hstep
  | succ due =>
      have hclosing : s.conState = .closing := by
        refine h.state.resolve_right fun hs => ?_
        have hzero := hs.2
        simp only [pending, hdue] at hzero
        omega
      obtain rfl : _ = t := by simpa [hdue, hclosing] using hstep
      exact ⟨⟨h.noAttempt, .inl rfl⟩, rfl⟩

/-- No handler of a settled client is in a listener that it would go on after. -/
theorem Settled.resume_eq_none {s : Client} (h : s.Settled) (made : Bool) :
    s.resume made = none := by
  rw [resume, h.noAttempt.2.2.2]

/-- The connection that closes was the one pending thing, and the client is closing: no
timer is armed, and nothing is left. -/
theorem Settled.onClose {s t : Client} {c : ℕ} {normal : Bool} (hinv : s.Inv) (h : s.Settled)
    (hstep : s.onClose c normal = some t) : s.Rests t := by
  have hpending := (handled_onClose hstep).pending_le
  rw [Client.onClose] at hstep
  by_cases hc : c ∈ s.connections
  · have hlength := List.length_erase_add_one hc
    have hone := hinv.one
    have hclosing : s.conState = .closing := by
      refine h.state.resolve_right fun hs => ?_
      have hzero := hs.2
      simp only [pending] at hzero
      omega
    obtain rfl : _ = t := by simpa [hc, hclosing] using hstep
    refine ⟨⟨h.noAttempt, .inr ⟨rfl, ?_⟩⟩, rfl⟩
    simp only [pending] at hone ⊢
    omega
  · simp [hc] at hstep

theorem Settled.loopEnd {s t : Client} (h : s.Settled) (hstep : s.loopEnd = some t) :
    s.Rests t := by
  rw [Client.loopEnd] at hstep
  split at hstep
  · obtain rfl := Option.some.inj hstep
    exact ⟨⟨h.noAttempt, h.state⟩, rfl⟩
  · exact absurd hstep (by simp)

/-- **A settled client rests** under every step other than a user call. -/
theorem Settled.step {s t : Client} (hinv : s.Inv) (h : s.Settled) {e : Event}
    (hconnect : e ≠ .connect) (hclose : e.isClose = false) (hstep : s.step e = some t) :
    s.Rests t := by
  cases e with
  | connect => exact absurd rfl hconnect
  | close => exact absurd hclose (by simp [Event.isClose])
  | syncClose => exact absurd hclose (by simp [Event.isClose])
  | closeInListener => exact absurd hclose (by simp [Event.isClose])
  | joined => exact h.joined hstep
  | runPosted made => exact h.runPosted (network_eq_some hstep).2
  | expire => exact h.expire (network_eq_some hstep).2
  | timeoutReconnect => exact h.timeoutReconnect (network_eq_some hstep).2
  | resume made =>
      have hresume := (inLoop_eq_some hstep).2
      rw [h.resume_eq_none made] at hresume
      exact absurd hresume (by simp)
  | onOpen c =>
      have hopen := (network_eq_some hstep).2
      rw [onOpen, if_neg (h.not_mem_attempts c)] at hopen
      exact absurd hopen (by simp)
  | onFail c =>
      have hfail := (network_eq_some hstep).2
      rw [onFail, if_neg (h.not_mem_attempts c)] at hfail
      exact absurd hfail (by simp)
  | onClose c normal => exact Settled.onClose hinv h (network_eq_some hstep).2
  | closeImpl =>
      obtain rfl := Option.some.inj (network_eq_some hstep).2
      exact h.closeImpl
  | loopEnd => exact h.loopEnd (network_eq_some hstep).2

/-! ### Whole runs -/

/-- The invariant of a watched client: one thing pending at most, and settled while final. -/
structure Watched.Inv (w : Watched) : Prop where
  client : w.client.Inv
  settled : w.final = true → w.client.Settled
  rearmed : w.rearmed = false

theorem Watched.inv_init (n : ℕ) : (Watched.init n).Inv :=
  ⟨Client.inv_init n, fun h => absurd h (by simp [Watched.init]), rfl⟩

/-- **Every quiet step keeps the invariant of a watched client.** -/
theorem Watched.Inv.step {w w' : Watched} {e : Event} (h : w.Inv)
    (hstep : w.step e = some w') (hquiet : Quiet w e) : w'.Inv := by
  obtain ⟨t, ht, hw'⟩ := Option.map_eq_some_iff.mp hstep
  have hinv := h.client.step ht
  by_cases hconnect : e = .connect
  · subst hconnect hw'
    exact ⟨hinv, fun hfinal => absurd hfinal (by simp), rfl⟩
  by_cases hclose : e.isClose = true
  · have hfinal : w' = ⟨t, true, w.rearmed⟩ := by
      cases e <;> first | exact hw'.symm | exact absurd hclose (by simp [Event.isClose])
    subst hfinal
    exact ⟨hinv, fun _ => settled_of_isClose (hquiet hclose) hclose ht, h.rearmed⟩
  -- Every other step leaves `final` as it is, and while it is set the client rests.
  have hrest : w' = ⟨t, w.final, w.rearmed || w.final && w.client.armed < t.armed⟩ := by
    cases e <;> first | exact hw'.symm | contradiction
  subst hrest
  have hrests := fun hfinal =>
    Settled.step h.client (h.settled hfinal) hconnect (by simpa using hclose) ht
  refine ⟨hinv, fun hfinal => (hrests hfinal).settled, ?_⟩
  cases hfinal : w.final with
  | false => simp [h.rearmed]
  | true => simp [h.rearmed, (hrests hfinal).armed_eq]

theorem Watched.Inv.staysClosed {w : Watched} (h : w.Inv) : w.StaysClosed := by
  intro hfinal
  rcases (h.settled hfinal).state with hstate | ⟨hstate, -⟩
  · exact ⟨by simp [hstate], by simp [hstate], h.rearmed⟩
  · exact ⟨by simp [hstate], by simp [hstate], h.rearmed⟩

/-- **Close is final in quiet runs**: if the user closes only while no attempt is under
way, then in every state of every run a client that was closed is neither opening nor
open, and has not armed the reconnect timer, until `connect` is called again. -/
theorem final_of_run {n : ℕ} {es : List Event} {w : Watched}
    (h : Run (fun w e w' => w.step e = some w' ∧ Quiet w e) (Watched.init n) es w) :
    w.StaysClosed :=
  (h.invariant (fun hinv hstep => hinv.step hstep.1 hstep.2)
    (Watched.inv_init n)).staysClosed

/-- A connection that is opened, closed by the user, and closed. -/
theorem final_of_run_close :
    (Watched.mk
      { init 2 with
        asked := [0], thread := true, running := true, next := 1 } true false).StaysClosed :=
  @final_of_run 2
    [.connect, .runPosted true, .onOpen 0, .close, .runPosted true, .onClose 0 true] _
    (run_of_foldlM_guard (by decide))

/-! ### A close during an attempt -/

/-- A step other than a call of `connect`. -/
def Later (s t : Client) : Prop :=
  ∃ e, e ≠ Event.connect ∧ s.step e = some t

/-- The network thread is between two handlers. -/
def Idle (s : Client) : Prop :=
  s.running = true ∧ s.calling = none

/-- A handler runs later, while the thread is between two handlers. -/
theorem later_network {s t : Client} {e : Event} (hidle : s.Idle)
    (hconnect : e ≠ .connect) (hstep : s.step e = s.network (some t)) :
    Relation.ReflTransGen Later s t :=
  .single ⟨e, hconnect, by rw [hstep, network, if_pos hidle.2, inLoop, if_pos hidle.1]⟩

/-- An attempt can open. -/
theorem opens_of_mem_attempts {s : Client} (hidle : s.Idle) {c : ℕ}
    (hc : c ∈ s.attempts) :
    ∃ t, Relation.ReflTransGen Later s t ∧ t.conState = .opened := by
  exact ⟨_, later_network (e := .onOpen c) hidle (by simp) (by rw [step, onOpen, if_pos hc]),
    rfl⟩

theorem closeImpl_frame (s : Client) :
    s.closeImpl.posted = s.posted ∧ s.closeImpl.Idle = s.Idle ∧
      s.closeImpl.conState = s.conState ∧ s.closeImpl.attempts = s.attempts ∧
      s.closeImpl.joining = s.joining := by
  rw [closeImpl]
  cases s.con <;> exact ⟨rfl, rfl, rfl, rfl, rfl⟩

/-- A queued attempt can be made, and open. -/
theorem opens_of_mem_posted {s : Client} (hidle : s.Idle)
    (hposted : .connectImpl ∈ s.posted) :
    ∃ t, Relation.ReflTransGen Later s t ∧ t.conState = .opened := by
  induction hqueue : s.posted generalizing s with
  | nil => simp [hqueue] at hposted
  | cons first posted ih =>
      cases first with
      | connectImpl =>
          have hstep := later_network (s := s) (e := .runPosted true) hidle (by simp)
            (by rw [step, runPosted, hqueue])
          obtain ⟨t, ht, hopened⟩ := opens_of_mem_attempts (c := s.next)
            (s := connectImpl { s with posted := posted } true) hidle
            (by simp [connectImpl])
          exact ⟨t, hstep.trans ht, hopened⟩
      | closeImpl =>
          have hstep := later_network (s := s) (e := .runPosted true) hidle (by simp)
            (by rw [step, runPosted, hqueue])
          have hframe := closeImpl_frame { s with posted := posted }
          obtain ⟨t, ht, hopened⟩ := ih (hframe.2.1.mpr hidle)
            (by rw [hframe.1]; simpa [hqueue] using hposted) hframe.1
          exact ⟨t, hstep.trans ht, hopened⟩

/-- With nothing but connections left, the loop can end. -/
theorem ends_of_connections {s : Client} (hidle : s.Idle) (hposted : s.posted = [])
    (hattempts : s.attempts = []) (htimer : s.timer = false) (hdue : s.due = 0) :
    ∃ t, Relation.ReflTransGen Later s t ∧ t.running = false ∧ t.joining = s.joining := by
  induction hconnections : s.connections generalizing s with
  | nil =>
      have hend : s.loopEnd = some { s with running := false } := by
        rw [loopEnd, if_pos ⟨hposted, htimer, hdue, hattempts, hconnections⟩]
      exact ⟨_, later_network (e := .loopEnd) hidle (by simp) (congrArg s.network hend),
        rfl, rfl⟩
  | cons c connections ih =>
      have hclose := later_network (s := s) (e := .onClose c true) hidle (by simp)
        (by rw [step, onClose, if_pos (by simp [hconnections]), if_pos (.inl rfl)])
      obtain ⟨t, ht, hended, hjoining⟩ := ih (s := { s with
          connections := s.connections.erase c, con := none, conState := .closed })
        hidle hposted hattempts htimer hdue (by simp [hconnections])
      exact ⟨t, hclose.trans ht, hended, hjoining⟩

/-- So it can with reconnects that are due: a client that is closing drops them. -/
theorem ends_of_due {s : Client} (hidle : s.Idle) (hposted : s.posted = [])
    (hattempts : s.attempts = []) (htimer : s.timer = false)
    (hclosing : s.conState = .closing) :
    ∃ t, Relation.ReflTransGen Later s t ∧ t.running = false ∧ t.joining = s.joining := by
  induction hdue : s.due generalizing s with
  | zero => exact ends_of_connections hidle hposted hattempts htimer hdue
  | succ due ih =>
      have hlate : s.timeoutReconnect = some { s with due := due } := by
        have hopen : s.conState ≠ .closed := by simp [hclosing]
        simp only [timeoutReconnect, hdue, if_neg hopen]
      have hdrop := later_network (e := .timeoutReconnect) hidle (by simp)
        (congrArg s.network hlate)
      obtain ⟨t, ht, hended, hjoining⟩ :=
        ih (s := { s with due := due }) hidle hposted hattempts htimer hclosing rfl
      exact ⟨t, hdrop.trans ht, hended, hjoining⟩

/-- So it can with handlers that wait, unless they make a new attempt. -/
theorem ends_of_closing {s : Client} (hidle : s.Idle)
    (hattempts : s.attempts = []) (hclosing : s.conState = .closing)
    (hqueued : .connectImpl ∉ s.posted) :
    ∃ t, Relation.ReflTransGen Later s t ∧ t.running = false ∧ t.joining = s.joining := by
  induction hqueue : s.posted generalizing s with
  | nil =>
      cases htimer : s.timer with
      | false => exact ends_of_due hidle hqueue hattempts htimer hclosing
      | true =>
          have hexpire := later_network (s := s) (e := .expire) hidle (by simp)
            (by rw [step, expire, if_pos htimer])
          obtain ⟨t, ht, hended, hjoining⟩ :=
            ends_of_due (s := { s with timer := false, due := s.due + 1 })
              hidle hqueue hattempts rfl hclosing
          exact ⟨t, hexpire.trans ht, hended, hjoining⟩
  | cons first posted ih =>
      rw [hqueue] at hqueued
      cases first with
      | connectImpl => exact absurd List.mem_cons_self hqueued
      | closeImpl =>
          have hstep := later_network (s := s) (e := .runPosted true) hidle (by simp)
            (by rw [step, runPosted, hqueue])
          obtain ⟨hrest, hrun, hstate, hnone, hjoin⟩ := closeImpl_frame { s with posted := posted }
          obtain ⟨t, ht, hended, hjoining⟩ := ih (hrun.mpr hidle) (hnone.trans hattempts)
            (hstate.trans hclosing)
            (by rw [hrest]; exact fun hmem => hqueued (List.mem_cons_of_mem _ hmem)) hrest
          exact ⟨t, hstep.trans ht, hended, hjoining.trans hjoin⟩

/-- A call of `connect` that waits for the loop can come through. -/
theorem opening_of_joining {s : Client} (hended : s.running = false)
    (hjoining : s.joining = some .connect) :
    ∃ t, Relation.ReflTransGen Later s t ∧ t.conState = .opening :=
  ⟨_, .single ⟨.joined, by simp, by rw [step, joined, hended, hjoining]⟩, rfl⟩

/-- A handler that is in a listener goes on: the client opens, or its timer is armed. -/
theorem goes_on_of_calling {s : Client} (hrunning : s.running = true) {call : Calling}
    (hcalling : s.calling = some call) :
    ∃ t, Relation.ReflTransGen Later s t ∧ (t.conState = .opened ∨ s.armed < t.armed) := by
  have hlater (u : Client) (hresume : s.resume true = some u) :
      Relation.ReflTransGen Later s u :=
    .single ⟨.resume true, by simp, by rw [step, inLoop, if_pos hrunning, hresume]⟩
  cases call with
  | reconnect =>
      exact ⟨_, hlater _ (by rw [resume, hcalling]), .inr (Nat.lt_succ_self s.armed)⟩
  | reconnecting =>
      obtain ⟨t, ht, hopened⟩ := opens_of_mem_attempts (c := s.next)
        (s := connectImpl { s with calling := none } true) ⟨hrunning, rfl⟩ (by simp [connectImpl])
      exact ⟨t, (hlater _ (by rw [resume, hcalling])).trans ht, .inl hopened⟩

/-- While something is pending, the network thread is in its loop. -/
theorem Inv.running {s : Client} (h : s.Inv) (hpending : 0 < s.pending) : s.running = true := by
  by_contra hended
  have hzero := h.ended (by simpa using hended)
  omega

/-- **A close during an attempt is not final**: whatever kind of attempt is under way when
the user closes, the client can become opening or open, or arm its timer, without a further
`connect`. -/
theorem reopens {s : Client} (hinv : s.Inv) (hattempt : ¬ s.NoAttempt) :
    ∃ t, Relation.ReflTransGen Later s.close t ∧
      (t.conState = .opening ∨ t.conState = .opened ∨ s.armed < t.armed) := by
  cases hcalling : s.calling with
  | some call =>
      have hrunning := hinv.running (by simp [pending, hcalling])
      obtain ⟨t, ht, hgoes⟩ := goes_on_of_calling (s := s.close) hrunning hcalling
      exact ⟨t, ht, .inr hgoes⟩
  | none =>
      by_cases hqueued : .connectImpl ∈ s.posted
      · have hcount := List.count_pos_iff.mpr hqueued
        have hrunning := hinv.running (by rw [pending]; omega)
        obtain ⟨t, ht, hopened⟩ := opens_of_mem_posted (s := s.close) ⟨hrunning, hcalling⟩
          (List.mem_append_left _ hqueued)
        exact ⟨t, ht, .inr (.inl hopened)⟩
      by_cases hattempts : s.attempts = []
      · have hjoining : s.joining = some .connect := by
          by_contra hnot
          exact hattempt ⟨hattempts, hqueued, hnot, hcalling⟩
        have hend : ∃ t, Relation.ReflTransGen Later s.close t ∧ t.running = false ∧
            t.joining = s.joining := by
          cases hrunning : s.running with
          | false => exact ⟨s.close, .refl, hrunning, rfl⟩
          | true =>
              exact ends_of_closing (s := s.close) ⟨hrunning, hcalling⟩ hattempts rfl
                (by simpa [close])
        obtain ⟨t, ht, hended, hjoin⟩ := hend
        obtain ⟨u, hu, hopening⟩ := opening_of_joining hended (hjoin.trans hjoining)
        exact ⟨u, ht.trans hu, .inl hopening⟩
      · obtain ⟨c, hc⟩ := List.exists_mem_of_ne_nil _ hattempts
        have hlength := List.length_pos_iff.mpr hattempts
        have hrunning := hinv.running (by rw [pending]; omega)
        obtain ⟨t, ht, hopened⟩ := opens_of_mem_attempts (s := s.close) ⟨hrunning, hcalling⟩ hc
        exact ⟨t, ht, .inr (.inl hopened)⟩

/-- The user closes while the first attempt is opening: `close_impl` finds no connection
yet, and `on_open` opens the client. -/
theorem not_final :
    ¬ ∀ (n : ℕ) (es : List Event) (w : Watched),
      Run (fun w e w' => w.step e = some w') (Watched.init n) es w → w.StaysClosed := by
  intro h
  have hrun : [Event.connect, .runPosted true, .close, .runPosted true, .onOpen 0].foldlM
      Watched.step (Watched.init 2) = some
        ⟨{ init 2 with
            conState := .opened, con := some 0, connections := [0], thread := true,
            running := true, next := 1 }, true, false⟩ := by
    decide
  exact (h _ _ _ (run_iff_foldlM.mpr hrun) rfl).2.1 rfl

end Client

end MahjongAI
