import MahjongAI.Handshake
import MahjongAI.Packet
import MahjongAI.Runs

/-!
# Keeping a Connection Alive

The handshake of a connection says how often the client pings and how long it waits. Each
ping starts the wait for an answer unless one is pending; any message from the server
starts it again, and a pong ends it. When it is over the connection is closed.

Time is a number of milliseconds. A handler is called the moment its wait is over: time
does not pass a pending deadline. A timer may be cancelled or set again in that moment,
after its handler was queued; the handler is then called all the same, and with no error.
`latePings` and `lateTimeouts` are these handlers.

## Main results

* `KeepAlive.detected_of_run`: a server that falls silent is found out within one interval
  and one timeout.
* `KeepAlive.patient_of_run`: a connection is never closed for want of a pong before the
  server has been silent, and has left a ping unanswered, for a whole timeout.
-/

open Runs

namespace MahjongAI

/-- Why the client closes a connection. -/
inductive CloseCause
  | handshakeError
  | pongTimeout
  | endByServer
  deriving DecidableEq

/-- What is seen of the keep-alive: a message comes in, which may be a pong; a ping goes
out; the connection is asked to close. -/
inductive Beat
  | received (pong : Bool)
  | pinged
  | closing (cause : CloseCause)
  deriving DecidableEq

/-- The part of `client_impl` that keeps a connection alive. -/
structure KeepAlive where
  /-- The clock. -/
  now : ℕ
  /-- `m_con` is not expired. -/
  online : Bool
  /-- `m_sid`. -/
  sid : List Char
  /-- `m_ping_interval`. -/
  pingInterval : ℕ
  /-- `m_ping_timeout`. -/
  pingTimeout : ℕ
  /-- `m_ping_timer`, when it is not null, with the deadline of its pending wait. -/
  pingTimer : Option (Option ℕ)
  /-- `m_ping_timeout_timer`. -/
  pingTimeoutTimer : Option (Option ℕ)
  /-- Queued handlers of waits for the next ping that were given up too late. -/
  latePings : ℕ
  /-- The deadlines of waits for a pong that were given up too late. -/
  lateTimeouts : List ℕ
  /-- What was seen, and when. -/
  log : List (ℕ × Beat)

namespace KeepAlive

/-- The constructor of `client_impl`. -/
def init : KeepAlive where
  now := 0
  online := false
  sid := []
  pingInterval := 0
  pingTimeout := 0
  pingTimer := none
  pingTimeoutTimer := none
  latePings := 0
  lateTimeouts := []
  log := []

/-! ### The timers -/

/-- Something is seen now. -/
def see (s : KeepAlive) (b : Beat) : KeepAlive :=
  { s with log := s.log ++ [(s.now, b)] }

/-- The deadline of a wait that is over. -/
def expired (s : KeepAlive) (timer : Option (Option ℕ)) : List ℕ :=
  timer.join.toList.filter (· ≤ s.now)

/-- The pending wait for the next ping is given up. -/
def giveUpPing (s : KeepAlive) : KeepAlive :=
  { s with latePings := s.latePings + (s.expired s.pingTimer).length }

/-- The pending wait for a pong is given up. -/
def giveUpTimeout (s : KeepAlive) : KeepAlive :=
  { s with lateTimeouts := s.lateTimeouts ++ s.expired s.pingTimeoutTimer }

/-- `m_ping_timer` is set. -/
def setPing (s : KeepAlive) : KeepAlive :=
  { s.giveUpPing with pingTimer := some (some (s.now + s.pingInterval)) }

/-- `m_ping_timeout_timer` is set. -/
def setTimeout (s : KeepAlive) : KeepAlive :=
  { s.giveUpTimeout with pingTimeoutTimer := some (some (s.now + s.pingTimeout)) }

/-- `ping`, called with no error. -/
def ping (s : KeepAlive) : KeepAlive :=
  if s.online then
    let s := s.see .pinged
    let s := if s.pingTimer.isSome then s.setPing else s
    if s.pingTimeoutTimer.isNone then s.setTimeout else s
  else s

/-- `on_pong`. -/
def onPong (s : KeepAlive) : KeepAlive :=
  if s.pingTimeoutTimer.isSome then { s.giveUpTimeout with pingTimeoutTimer := none } else s

/-- `on_handshake`. -/
def onHandshake (s : KeepAlive) (m : Message) : Option KeepAlive :=
  (readHandshake m).map fun
    | some values =>
        setPing
          { s with
            sid := values.sid
            pingInterval := values.pingInterval
            pingTimeout := values.pingTimeout }
    | none => s.see (.closing .handshakeError)

/-- `on_decode`, for the frames of the engine. -/
def onDecode (s : KeepAlive) (p : Packet) : Option KeepAlive :=
  if p.frame = 0 then s.onHandshake p.message
  else if p.frame = 1 then some (s.see (.closing .endByServer))
  else if p.frame = Packet.framePong then some s.onPong
  else some s

/-- `on_message`, where the payload completes the packet `p`, or none. -/
def onMessage (s : KeepAlive) (p : Option Packet) : Option KeepAlive :=
  let s := s.see (.received (p.any fun p => p.frame = Packet.framePong))
  let s := if s.pingTimeoutTimer.isSome then s.setTimeout else s
  match p with
  | some p => s.onDecode p
  | none => some s

/-- `clear_timers`. -/
def clearTimers (s : KeepAlive) : KeepAlive :=
  { s.giveUpTimeout.giveUpPing with pingTimer := none, pingTimeoutTimer := none }

/-- What happens: time passes, the states are reset for a new connection, the connection
opens and closes, a message comes in, and the handlers of the timers are called. -/
inductive Event
  | wait (n : ℕ)
  | resetStates
  | onOpen
  | onClose
  | message (p : Option Packet)
  | ping
  | timeoutPong
  | latePing
  | lateTimeoutPong

/-- The deadlines of the pending waits. -/
def pending (s : KeepAlive) : List ℕ :=
  s.pingTimer.join.toList ++ s.pingTimeoutTimer.join.toList

/-- One event. -/
def step (s : KeepAlive) : Event → Option KeepAlive
  | .wait n => if ∀ d ∈ s.pending, s.now + n ≤ d then some { s with now := s.now + n } else none
  | .resetStates => if s.online then none else some { s with sid := [] }
  | .onOpen => if s.online then none else some { s with online := true }
  | .onClose => if s.online then some { s.clearTimers with online := false } else none
  | .message p => if s.online then s.onMessage p else none
  | .ping =>
      match s.pingTimer with
      | some (some d) => if d ≤ s.now then some { s with pingTimer := some none }.ping else none
      | _ => none
  | .timeoutPong =>
      match s.pingTimeoutTimer with
      | some (some d) =>
          if d ≤ s.now then
            some ({ s with pingTimeoutTimer := some none }.see (.closing .pongTimeout))
          else none
      | _ => none
  | .latePing =>
      if 0 < s.latePings then some { s with latePings := s.latePings - 1 }.ping else none
  | .lateTimeoutPong =>
      match s.lateTimeouts with
      | _ :: ds => some ({ s with lateTimeouts := ds }.see (.closing .pongTimeout))
      | [] => none

/-- The interval and the timeout that an event hands to the client. -/
def Event.shakes : Event → Option (ℕ × ℕ)
  | .message (some p) =>
      if p.frame = 0 then
        (readHandshake p.message).join.map fun values => (values.pingInterval, values.pingTimeout)
      else none
  | _ => none

/-! ### Silence -/

/-- When the last message came in. -/
def lastHeard (log : List (ℕ × Beat)) : Option ℕ :=
  (log.reverse.find? fun e => e.2 matches .received _).map Prod.fst

/-- What was seen since the last message, latest first. -/
def silence (log : List (ℕ × Beat)) : List (ℕ × Beat) :=
  log.reverse.takeWhile fun e => !(e.2 matches .received _)

@[simp] theorem lastHeard_received (log : List (ℕ × Beat)) (t : ℕ) (pong : Bool) :
    lastHeard (log ++ [(t, .received pong)]) = some t := by
  simp [lastHeard]

theorem lastHeard_concat (log : List (ℕ × Beat)) (t : ℕ) {b : Beat}
    (hb : ∀ pong, b ≠ .received pong) : lastHeard (log ++ [(t, b)]) = lastHeard log := by
  cases b with
  | received pong => exact absurd rfl (hb pong)
  | _ => simp [lastHeard]

theorem silence_concat (log : List (ℕ × Beat)) (t : ℕ) {b : Beat}
    (hb : ∀ pong, b ≠ .received pong) : silence (log ++ [(t, b)]) = (t, b) :: silence log := by
  cases b with
  | received pong => exact absurd rfl (hb pong)
  | _ => simp [silence]

/-! ### A silent server is found out -/

/-- Every step is legal, and every handshake keeps to the bounds. -/
def Bounded (I O : ℕ) (s : KeepAlive) (e : Event) (s' : KeepAlive) : Prop :=
  step s e = some s' ∧ ∀ i o, e.shakes = some (i, o) → i ≤ I ∧ o ≤ O

/-- With the last message at `h`, the next ping is due at `d`, and either no ping has been
sent since, or the wait for the pong is pending, or it is over. -/
structure Watch (I O : ℕ) (s : KeepAlive) (d h : ℕ) : Prop where
  now_le : s.now ≤ d
  le_now : d ≤ s.now + I
  heard : lastHeard s.log = some h
  idle : s.pingTimeoutTimer = none → d ≤ h + I
  waits : ∀ e, s.pingTimeoutTimer = some (some e) → e ≤ h + I + O
  ended : s.pingTimeoutTimer = some none →
    ∃ u ≤ h + I + O, (u, .closing .pongTimeout) ∈ silence s.log

/-- A connection with a handshake is watched. -/
structure Prompt (I O : ℕ) (s : KeepAlive) : Prop where
  offline : s.online = false → s.pingTimer = none
  interval : s.pingInterval ≤ I
  timeout : s.pingTimeout ≤ O
  due : ∀ e, s.pingTimeoutTimer = some (some e) → s.now ≤ e
  watch : ∀ t, s.pingTimer = some t → ∃ d h, t = some d ∧ Watch I O s d h

variable {I O : ℕ} {s : KeepAlive}

theorem prompt_init : Prompt I O init where
  offline := fun _ => rfl
  interval := Nat.zero_le _
  timeout := Nat.zero_le _
  due := fun _ h => absurd h (by simp [init])
  watch := fun _ h => absurd h (by simp [init])

/-- What is not a message only adds to the silence. -/
theorem Prompt.see (h : Prompt I O s) {b : Beat} (hb : ∀ pong, b ≠ .received pong) :
    Prompt I O (s.see b) where
  offline := h.offline
  interval := h.interval
  timeout := h.timeout
  due := h.due
  watch := by
    intro t ht
    obtain ⟨d, u, rfl, hw⟩ := h.watch t ht
    refine ⟨d, u, rfl, hw.now_le, hw.le_now, ?_, hw.idle, hw.waits, fun hended => ?_⟩
    · exact (lastHeard_concat s.log s.now hb).trans hw.heard
    · obtain ⟨v, hv, hmem⟩ := hw.ended hended
      refine ⟨v, hv, ?_⟩
      rw [KeepAlive.see, silence_concat s.log s.now hb]
      exact List.mem_cons_of_mem _ hmem

/-- What a `ping` does on an open connection. -/
theorem ping_eq (honline : s.online = true) :
    s.ping =
      { s with
        pingTimer := s.pingTimer.map fun _ => some (s.now + s.pingInterval)
        pingTimeoutTimer := s.pingTimeoutTimer.or (some (some (s.now + s.pingTimeout)))
        latePings := s.latePings + (s.expired s.pingTimer).length
        log := s.log ++ [(s.now, .pinged)] } := by
  rw [ping, if_pos honline]
  cases hping : s.pingTimer with
  | none => cases htimeout : s.pingTimeoutTimer <;>
      simp [KeepAlive.see, setTimeout, giveUpTimeout, expired, hping, htimeout]
  | some d => cases htimeout : s.pingTimeoutTimer <;>
      simp [KeepAlive.see, setPing, giveUpPing, setTimeout, giveUpTimeout, expired, hping, htimeout]

/-- A ping is sent when it is due, or later. -/
theorem Prompt.ping (h : Prompt I O s) {timer : Option (Option ℕ)}
    (htimer : timer.isSome = s.pingTimer.isSome) (late : ℕ) :
    Prompt I O { s with pingTimer := timer, latePings := late }.ping := by
  by_cases honline : s.online = true
  · rw [ping_eq (s := { s with pingTimer := timer, latePings := late }) honline]
    refine ⟨fun hoff => ?_, h.interval, h.timeout, fun e he => ?_, fun t ht => ?_⟩
    · rw [show s.online = false from hoff] at honline
      exact absurd honline (by simp)
    · cases htimeout : s.pingTimeoutTimer with
      | none =>
          simp only [htimeout, Option.none_or, Option.some.injEq] at he
          show s.now ≤ e
          omega
      | some e' =>
          simp only [htimeout, Option.some_or] at he
          exact h.due e (htimeout.trans he)
    · obtain ⟨d', hd', rfl⟩ := Option.map_eq_some_iff.mp ht
      have hsome : s.pingTimer.isSome = true := by
        rw [← htimer, show timer = some d' from hd', Option.isSome_some]
      obtain ⟨d, hd⟩ := Option.isSome_iff_exists.mp hsome
      obtain ⟨d, u, rfl, hw⟩ := h.watch d hd
      have hno : ∀ pong, Beat.pinged ≠ .received pong := by simp
      refine ⟨_, u, rfl, Nat.le_add_right _ _, Nat.add_le_add_left h.interval _,
        (lastHeard_concat s.log s.now hno).trans hw.heard, fun hnone => ?_, fun e he => ?_,
        fun hended => ?_⟩
      · exact absurd hnone (by cases s.pingTimeoutTimer <;> simp)
      · cases htimeout : s.pingTimeoutTimer with
        | none =>
            simp only [htimeout, Option.none_or, Option.some.injEq] at he
            have hidle := hw.idle htimeout
            have hnow := hw.now_le
            have htimeout := h.timeout
            omega
        | some e' =>
            simp only [htimeout, Option.some_or] at he
            exact hw.waits e (htimeout.trans he)
      · cases htimeout : s.pingTimeoutTimer with
        | none => simp [htimeout] at hended
        | some e' =>
            simp only [htimeout, Option.some_or] at hended
            obtain ⟨v, hv, hmem⟩ := hw.ended (htimeout.trans hended)
            refine ⟨v, hv, ?_⟩
            show _ ∈ silence (s.log ++ [(s.now, Beat.pinged)])
            rw [silence_concat s.log s.now hno]
            exact List.mem_cons_of_mem _ hmem
  · rw [KeepAlive.ping, if_neg honline]
    have hnone := h.offline (by simpa using honline)
    rw [hnone, Option.isSome_none, Option.isSome_eq_false_iff, Option.isNone_iff_eq_none] at htimer
    subst htimer
    exact ⟨fun _ => rfl, h.interval, h.timeout, h.due, fun t ht => absurd ht (by simp)⟩

/-- The state in which `on_message` turns to the packet. -/
def hear (s : KeepAlive) (pong : Bool) : KeepAlive :=
  { s with
    pingTimeoutTimer := s.pingTimeoutTimer.map fun _ => some (s.now + s.pingTimeout)
    lateTimeouts := s.lateTimeouts ++ s.expired s.pingTimeoutTimer
    log := s.log ++ [(s.now, .received pong)] }

theorem onMessage_eq (s : KeepAlive) : (p : Option Packet) → s.onMessage p =
    match p with
    | some p => (s.hear (p.frame = Packet.framePong)).onDecode p
    | none => some (s.hear false)
  | none => by
      rw [onMessage]
      cases htimeout : s.pingTimeoutTimer <;>
        simp [KeepAlive.see, setTimeout, giveUpTimeout, hear, expired, htimeout]
  | some p => by
      rw [onMessage]
      cases htimeout : s.pingTimeoutTimer <;>
        simp [KeepAlive.see, setTimeout, giveUpTimeout, hear, expired, htimeout]

/-- A message has just come in, and the wait for a pong, if any, has started again. -/
structure Heard (O : ℕ) (s : KeepAlive) : Prop where
  heard : lastHeard s.log = some s.now
  fresh : ∀ t, s.pingTimeoutTimer = some t → ∃ e, t = some e ∧ e ≤ s.now + O

theorem Prompt.hear (h : Prompt I O s) (pong : Bool) :
    Prompt I O (s.hear pong) ∧ Heard O (s.hear pong) := by
  have hheard : lastHeard (s.hear pong).log = some (s.hear pong).now := lastHeard_received _ _ _
  refine ⟨⟨h.offline, h.interval, h.timeout, fun e he => ?_, fun t ht => ?_⟩, hheard,
    fun t ht => ?_⟩
  · obtain ⟨t, -, heq⟩ := Option.map_eq_some_iff.mp he
    obtain rfl := Option.some.inj heq
    exact Nat.le_add_right _ _
  · obtain ⟨d, u, rfl, hw⟩ := h.watch t ht
    refine ⟨d, s.now, rfl, hw.now_le, hw.le_now, hheard, fun _ => hw.le_now, fun e he => ?_,
      fun hended => ?_⟩
    · obtain ⟨t, -, heq⟩ := Option.map_eq_some_iff.mp he
      obtain rfl := Option.some.inj heq
      have htimeout := h.timeout
      omega
    · obtain ⟨t, -, heq⟩ := Option.map_eq_some_iff.mp hended
      exact absurd heq (by simp)
  · obtain ⟨t, -, rfl⟩ := Option.map_eq_some_iff.mp ht
    exact ⟨_, rfl, Nat.add_le_add_left h.timeout _⟩

/-- **A handshake** starts the watch. -/
theorem Prompt.handshake (h : Prompt I O s) (hheard : Heard O s) (honline : s.online = true)
    {values : Handshake} (hinterval : values.pingInterval ≤ I) (htimeout : values.pingTimeout ≤ O) :
    Prompt I O (setPing
      { s with
        sid := values.sid
        pingInterval := values.pingInterval
        pingTimeout := values.pingTimeout }) := by
  refine ⟨fun hoff => ?_, hinterval, htimeout, h.due, fun t ht => ?_⟩
  · rw [show s.online = false from hoff] at honline
    exact absurd honline (by simp)
  · obtain rfl := Option.some.inj ht
    refine ⟨_, s.now, rfl, Nat.le_add_right _ _, Nat.add_le_add_left hinterval _, hheard.heard,
      fun _ => Nat.add_le_add_left hinterval _, fun e he => ?_, fun hended => ?_⟩
    · obtain ⟨e', heq, he'⟩ := hheard.fresh _ he
      obtain rfl := Option.some.inj heq
      omega
    · obtain ⟨e', heq, -⟩ := hheard.fresh _ hended
      exact absurd heq (by simp)

/-- A pong ends the wait for it. -/
theorem Prompt.onPong (h : Prompt I O s) (hheard : Heard O s) : Prompt I O s.onPong := by
  rw [KeepAlive.onPong]
  split
  · refine ⟨h.offline, h.interval, h.timeout, fun e he => absurd he (by simp), fun t ht => ?_⟩
    obtain ⟨d, u, rfl, hw⟩ := h.watch t ht
    exact ⟨d, s.now, rfl, hw.now_le, hw.le_now, hheard.heard, fun _ => hw.le_now,
      fun e he => absurd he (by simp), fun hended => absurd hended (by simp)⟩
  · exact h

theorem Prompt.onDecode (h : Prompt I O s) (hheard : Heard O s) (honline : s.online = true)
    {p : Packet} {s' : KeepAlive} (hstep : s.onDecode p = some s')
    (hshakes : ∀ i o, Event.shakes (.message (some p)) = some (i, o) → i ≤ I ∧ o ≤ O) :
    Prompt I O s' := by
  rw [KeepAlive.onDecode] at hstep
  split_ifs at hstep with hopen hclose hpong
  · obtain ⟨result, hread, hresult⟩ := Option.map_eq_some_iff.mp hstep
    cases result with
    | none =>
        obtain rfl := hresult
        exact h.see (by simp)
    | some values =>
        obtain rfl := hresult
        obtain ⟨hinterval, htimeout⟩ := hshakes values.pingInterval values.pingTimeout
          (by simp [Event.shakes, hopen, hread])
        exact h.handshake hheard honline hinterval htimeout
  · obtain rfl := Option.some.inj hstep
    exact h.see (by simp)
  · obtain rfl := Option.some.inj hstep
    exact h.onPong hheard
  · obtain rfl := Option.some.inj hstep
    exact h

theorem prompt_step {s' : KeepAlive} {e : Event} (h : Prompt I O s) (hstep : Bounded I O s e s') :
    Prompt I O s' := by
  obtain ⟨hstep, hshakes⟩ := hstep
  cases e with
  | wait n =>
      simp only [step, Option.ite_none_right_eq_some, Option.some.injEq] at hstep
      obtain ⟨hpending, rfl⟩ := hstep
      refine ⟨h.offline, h.interval, h.timeout, fun e he => ?_, fun t ht => ?_⟩
      · refine hpending e (List.mem_append_right _ ?_)
        rw [show s.pingTimeoutTimer = some (some e) from he]
        simp
      · obtain ⟨d, u, rfl, hw⟩ := h.watch t ht
        refine ⟨d, u, rfl, hpending d (List.mem_append_left _ ?_), ?_, hw.heard, hw.idle, hw.waits,
          hw.ended⟩
        · rw [show s.pingTimer = some (some d) from ht]
          simp
        · exact hw.le_now.trans (Nat.add_le_add_right (Nat.le_add_right _ _) _)
  | resetStates =>
      simp only [step, Option.ite_none_left_eq_some, Option.some.injEq] at hstep
      obtain ⟨-, rfl⟩ := hstep
      refine ⟨h.offline, h.interval, h.timeout, h.due, fun t ht => ?_⟩
      obtain ⟨d, u, rfl, hw⟩ := h.watch t ht
      exact ⟨d, u, rfl, hw.now_le, hw.le_now, hw.heard, hw.idle, hw.waits, hw.ended⟩
  | onOpen =>
      simp only [step, Option.ite_none_left_eq_some, Option.some.injEq] at hstep
      obtain ⟨honline, rfl⟩ := hstep
      have hnone := h.offline (by simpa using honline)
      refine ⟨fun _ => hnone, h.interval, h.timeout, h.due, fun t ht => ?_⟩
      rw [show s.pingTimer = some t from ht] at hnone
      exact absurd hnone (by simp)
  | onClose =>
      simp only [step, Option.ite_none_right_eq_some, Option.some.injEq] at hstep
      obtain ⟨-, rfl⟩ := hstep
      exact ⟨fun _ => rfl, h.interval, h.timeout, fun e he => absurd he (by simp [clearTimers]),
        fun t ht => absurd ht (by simp [clearTimers])⟩
  | message p =>
      simp only [step, Option.ite_none_right_eq_some] at hstep
      obtain ⟨honline, hstep⟩ := hstep
      rw [onMessage_eq] at hstep
      cases p with
      | none =>
          obtain rfl := Option.some.inj hstep
          exact (h.hear false).1
      | some p =>
          obtain ⟨hprompt, hheard⟩ := h.hear (p.frame = Packet.framePong)
          exact hprompt.onDecode hheard honline hstep hshakes
  | ping =>
      simp only [step] at hstep
      split at hstep
      · rename_i d hd
        simp only [Option.ite_none_right_eq_some, Option.some.injEq] at hstep
        obtain ⟨-, rfl⟩ := hstep
        exact h.ping (by rw [hd]; rfl) s.latePings
      · exact absurd hstep (by simp)
  | timeoutPong =>
      simp only [step] at hstep
      split at hstep
      · rename_i d hd
        simp only [Option.ite_none_right_eq_some, Option.some.injEq] at hstep
        obtain ⟨hended, rfl⟩ := hstep
        refine ⟨h.offline, h.interval, h.timeout, fun e he => absurd he (by simp [KeepAlive.see]),
          fun t ht => ?_⟩
        obtain ⟨d', u, rfl, hw⟩ := h.watch t ht
        have hno : ∀ pong, Beat.closing .pongTimeout ≠ .received pong := by simp
        refine ⟨d', u, rfl, hw.now_le, hw.le_now,
          (lastHeard_concat s.log s.now hno).trans hw.heard, fun hnone => absurd hnone
          (by simp [KeepAlive.see]), fun e he => absurd he (by simp [KeepAlive.see]), fun _ => ?_⟩
        refine ⟨s.now, (h.due d hd).trans (hw.waits d hd), ?_⟩
        show _ ∈ silence (s.log ++ [(s.now, Beat.closing .pongTimeout)])
        rw [silence_concat s.log s.now hno]
        exact List.mem_cons_self
      · exact absurd hstep (by simp)
  | latePing =>
      simp only [step, Option.ite_none_right_eq_some, Option.some.injEq] at hstep
      obtain ⟨-, rfl⟩ := hstep
      exact h.ping rfl (s.latePings - 1)
  | lateTimeoutPong =>
      simp only [step] at hstep
      split at hstep
      · rename_i d ds hd
        obtain rfl := Option.some.inj hstep
        have hkeep : Prompt I O { s with lateTimeouts := ds } := by
          refine ⟨h.offline, h.interval, h.timeout, h.due, fun t ht => ?_⟩
          obtain ⟨d, u, rfl, hw⟩ := h.watch t ht
          exact ⟨d, u, rfl, hw.now_le, hw.le_now, hw.heard, hw.idle, hw.waits, hw.ended⟩
        exact hkeep.see (by simp)
      · exact absurd hstep (by simp)

/-- **A silent server is found out**: with a handshake on the open connection, and intervals
and timeouts up to `I` and `O`, no more than `I + O` passes after the last message before
the connection is asked to close. -/
theorem detected_of_run {es : List Event} (h : Run (Bounded I O) init es s)
    (hshaken : s.pingTimer.isSome = true) : ∃ t, lastHeard s.log = some t ∧
      (t + I + O < s.now → ∃ u ≤ t + I + O, (u, .closing .pongTimeout) ∈ silence s.log) := by
  have hprompt : Prompt I O s := h.invariant (I := Prompt I O) prompt_step prompt_init
  obtain ⟨timer, htimer⟩ := Option.isSome_iff_exists.mp hshaken
  obtain ⟨d, t, rfl, hw⟩ := hprompt.watch timer htimer
  refine ⟨t, hw.heard, fun hlate => ?_⟩
  cases htimeout : s.pingTimeoutTimer with
  | none =>
      have hidle := hw.idle htimeout
      have hnow := hw.now_le
      omega
  | some e =>
      cases e with
      | none => exact hw.ended htimeout
      | some e =>
          have hwaits := hw.waits e htimeout
          have hdue := hprompt.due e htimeout
          omega

/-- A server that opens a connection and falls silent. -/
def exampleRun : List Event :=
  [.onOpen,
    .message (some
      { Packet.ofFrame 0 with
        message := .object [("sid".toList, .string []), ("pingInterval".toList, .int 10),
          ("pingTimeout".toList, .int 4)] }),
    .wait 10, .ping, .wait 4, .timeoutPong, .wait 1]

theorem shakes_exampleRun {e : Event} (he : e ∈ exampleRun) {i o : ℕ}
    (h : e.shakes = some (i, o)) : i = 10 ∧ o = 4 := by
  have hall : exampleRun.filterMap Event.shakes = [(10, 4)] := rfl
  have hmem : (i, o) ∈ exampleRun.filterMap Event.shakes := List.mem_filterMap.mpr ⟨e, he, h⟩
  rw [hall] at hmem
  simpa using hmem

theorem exists_exampleRun : ∃ s, Run (fun s e s' => step s e = some s') init exampleRun s ∧
    s.pingTimer.isSome = true ∧ s.now = 15 ∧ lastHeard s.log = some 0 ∧
      (14, .closing .pongTimeout) ∈ s.log :=
  ⟨_, run_iff_foldlM.mpr rfl, rfl, rfl, rfl, by decide⟩

/-- The silence is found out. -/
theorem detected_of_run_silent : ∃ s, Run (Bounded 10 4) init exampleRun s ∧ s.now = 15 ∧
    ∃ u ≤ 14, (u, .closing .pongTimeout) ∈ silence s.log := by
  obtain ⟨s, hrun, hshaken, hnow, hheard, -⟩ := exists_exampleRun
  have hrun : Run (Bounded 10 4) init exampleRun s := hrun.guard fun e he i o h => by
    obtain ⟨rfl, rfl⟩ := shakes_exampleRun he h
    exact ⟨le_rfl, le_rfl⟩
  obtain ⟨t, ht, hdetected⟩ := detected_of_run hrun hshaken
  obtain rfl : 0 = t := Option.some.inj (hheard.symm.trans ht)
  exact ⟨s, hrun, hnow, hdetected (by rw [hnow]; decide)⟩

/-! ### A server that answers is left alone -/

/-- Every step is legal, and every handshake gives the server `o` milliseconds or more. -/
def Generous (o : ℕ) (s : KeepAlive) (e : Event) (s' : KeepAlive) : Prop :=
  step s e = some s' ∧ ∀ i o', e.shakes = some (i, o') → o ≤ o'

/-- A ping was sent at `t` and no pong has come in before `d`. -/
def Unanswered (log : List (ℕ × Beat)) (t d : ℕ) : Prop :=
  ∃ before after, log = before ++ (t, .pinged) :: after ∧
    ∀ u, (u, .received true) ∈ after → d ≤ u

/-- In the `o` milliseconds before `d` nothing came in, and a ping at least as old had no
answer. -/
def Deaf (o d : ℕ) (log : List (ℕ × Beat)) : Prop :=
  (∀ t pong, (t, .received pong) ∈ log → t < d → t + o ≤ d) ∧
    ∃ t, t + o ≤ d ∧ Unanswered log t d

/-- A connection is only closed for want of a pong after such a silence. -/
def Patient (o : ℕ) (before : List (ℕ × Beat)) (e : ℕ × Beat) : Prop :=
  e.2 = .closing .pongTimeout → ∃ d ≤ e.1, Deaf o d before

theorem Unanswered.concat {log : List (ℕ × Beat)} {t d now : ℕ} {b : Beat}
    (h : Unanswered log t d) (hb : b = .received true → d ≤ now) :
    Unanswered (log ++ [(now, b)]) t d := by
  obtain ⟨before, after, rfl, hafter⟩ := h
  refine ⟨before, after ++ [(now, b)], by simp, fun u hu => ?_⟩
  rcases List.mem_append.mp hu with hu | hu
  · exact hafter u hu
  · obtain ⟨rfl, rfl⟩ := Prod.mk.inj (List.mem_singleton.mp hu)
    exact hb rfl

theorem Deaf.concat {log : List (ℕ × Beat)} {o d now : ℕ} (h : Deaf o d log) (hd : d ≤ now)
    (b : Beat) : Deaf o d (log ++ [(now, b)]) := by
  obtain ⟨hsilent, t, ht, hunanswered⟩ := h
  refine ⟨fun u pong hu hlt => ?_, t, ht, hunanswered.concat fun _ => hd⟩
  rcases List.mem_append.mp hu with hu | hu
  · exact hsilent u pong hu hlt
  · obtain ⟨rfl, -⟩ := Prod.mk.inj (List.mem_singleton.mp hu)
    omega

/-- The waits for a pong, pending or given up too late, are long enough. -/
structure Lenient (o : ℕ) (s : KeepAlive) : Prop where
  now_le : ∀ e ∈ s.log, e.1 ≤ s.now
  timeout : s.pingTimer = none ∧ s.pingTimeoutTimer = none ∧ s.latePings = 0 ∨ o ≤ s.pingTimeout
  unanswered : ∀ t, s.pingTimeoutTimer = some t → ∃ u ≤ s.now, ∀ d, Unanswered s.log u d ∧
    ∀ e, t = some e → u + o ≤ e
  silent : ∀ e, s.pingTimeoutTimer = some (some e) →
    ∀ t pong, (t, .received pong) ∈ s.log → t + o ≤ e
  late : ∀ d ∈ s.lateTimeouts, d ≤ s.now ∧ Deaf o d s.log
  patient : Along (Patient o) s.log

section Lenient

variable {o : ℕ}

theorem lenient_init : Lenient o init where
  now_le := by simp [init]
  timeout := Or.inl ⟨rfl, rfl, rfl⟩
  unanswered := fun _ h => absurd h (by simp [init])
  silent := fun _ h => absurd h (by simp [init])
  late := by simp [init]
  patient := along_nil _

/-- The deadline of a wait is the end of a silence, or it will be. -/
theorem Lenient.deaf (h : Lenient o s) {e : ℕ} (he : s.pingTimeoutTimer = some (some e)) :
    Deaf o e s.log := by
  obtain ⟨u, -, hu⟩ := h.unanswered _ he
  exact ⟨fun t pong ht _ => h.silent e he t pong ht, u, (hu e).2 e rfl, (hu e).1⟩

theorem Lenient.deaf_of_expired (h : Lenient o s) {d : ℕ} (hd : d ∈ s.expired s.pingTimeoutTimer) :
    d ≤ s.now ∧ Deaf o d s.log := by
  obtain ⟨hpending, hle⟩ := List.mem_filter.mp hd
  refine ⟨by simpa using hle, h.deaf ?_⟩
  simpa [Option.join_eq_some_iff] using hpending

theorem Lenient.now_le_concat (h : Lenient o s) (b : Beat) :
    ∀ e ∈ s.log ++ [(s.now, b)], e.1 ≤ s.now := by
  intro e he
  rcases List.mem_append.mp he with he | he
  · exact h.now_le e he
  · rw [List.mem_singleton.mp he]

theorem Lenient.see (h : Lenient o s) {b : Beat} (hb : ∀ pong, b ≠ .received pong)
    (hpatient : Patient o s.log (s.now, b)) : Lenient o (s.see b) where
  now_le := h.now_le_concat b
  timeout := h.timeout
  unanswered := fun t ht => by
    obtain ⟨u, hu, hall⟩ := h.unanswered t ht
    exact ⟨u, hu, fun d => ⟨(hall d).1.concat fun hpong => absurd hpong (hb true), (hall d).2⟩⟩
  silent := fun e he t pong ht => by
    rcases List.mem_append.mp ht with ht | ht
    · exact h.silent e he t pong ht
    · exact absurd (Prod.mk.inj (List.mem_singleton.mp ht)).2.symm (hb pong)
  late := fun d hd => ⟨(h.late d hd).1, (h.late d hd).2.concat (h.late d hd).1 b⟩
  patient := along_concat.mpr ⟨h.patient, hpatient⟩

/-- A new wait for a pong begins with a ping. -/
theorem Lenient.ping (h : Lenient o s) (ho : o ≤ s.pingTimeout) (timer : Option (Option ℕ))
    (late : ℕ) : Lenient o { s with pingTimer := timer, latePings := late }.ping := by
  by_cases honline : s.online = true
  · have hsee := h.see (b := .pinged) (by simp) (fun hb => absurd hb (by simp))
    rw [ping_eq (s := { s with pingTimer := timer, latePings := late }) honline]
    refine ⟨hsee.now_le, Or.inr ho, fun t ht => ?_, fun e he t pong ht => ?_, hsee.late,
      hsee.patient⟩
    · cases htimeout : s.pingTimeoutTimer with
      | none =>
          simp only [htimeout, Option.none_or, Option.some.injEq] at ht
          refine ⟨s.now, le_rfl, fun d => ⟨⟨s.log, [], rfl, by simp⟩, fun e he => ?_⟩⟩
          rw [← ht, Option.some.injEq] at he
          omega
      | some t' =>
          simp only [htimeout, Option.some_or] at ht
          exact hsee.unanswered t (htimeout.trans ht)
    · cases htimeout : s.pingTimeoutTimer with
      | none =>
          simp only [htimeout, Option.none_or, Option.some.injEq] at he
          have hle := hsee.now_le _ ht
          have hle : t ≤ s.now := hle
          omega
      | some t' =>
          simp only [htimeout, Option.some_or] at he
          exact hsee.silent e (htimeout.trans he) t pong ht
  · rw [KeepAlive.ping, if_neg honline]
    exact ⟨h.now_le, Or.inr ho, h.unanswered, h.silent, h.late, h.patient⟩

/-- What a message changes, up to the pending wait. -/
theorem Lenient.late_hear (h : Lenient o s) (pong : Bool) :
    ∀ d ∈ s.lateTimeouts ++ s.expired s.pingTimeoutTimer,
      d ≤ s.now ∧ Deaf o d (s.log ++ [(s.now, .received pong)]) := by
  intro d hd
  have hdeaf : d ≤ s.now ∧ Deaf o d s.log := by
    rcases List.mem_append.mp hd with hd | hd
    · exact h.late d hd
    · exact h.deaf_of_expired hd
  exact ⟨hdeaf.1, hdeaf.2.concat hdeaf.1 _⟩

/-- A message starts the wait again. -/
theorem Lenient.hear (h : Lenient o s) : Lenient o (s.hear false) := by
  have hno : s.pingTimeoutTimer.isSome = true → o ≤ s.pingTimeout := by
    intro hsome
    refine h.timeout.resolve_left fun hnone => ?_
    rw [hnone.2.1] at hsome
    exact absurd hsome (by simp)
  refine ⟨h.now_le_concat _, ?_, fun t ht => ?_, fun e he t pong ht => ?_, h.late_hear false,
    along_concat.mpr ⟨h.patient, fun hb => absurd hb (by simp)⟩⟩
  · refine h.timeout.imp (fun hnone => ⟨hnone.1, ?_, hnone.2.2⟩) id
    rw [KeepAlive.hear, hnone.2.1]
    rfl
  · obtain ⟨t', ht', rfl⟩ := Option.map_eq_some_iff.mp ht
    have ho := hno (by rw [ht']; rfl)
    obtain ⟨u, hu, hall⟩ := h.unanswered t' ht'
    refine ⟨u, hu, fun d => ⟨(hall d).1.concat (by simp), fun e he => ?_⟩⟩
    obtain rfl := Option.some.inj he
    exact Nat.add_le_add hu ho
  · obtain ⟨t', ht', heq⟩ := Option.map_eq_some_iff.mp he
    have ho := hno (by rw [ht']; rfl)
    obtain rfl := Option.some.inj heq
    exact Nat.add_le_add (h.now_le_concat _ _ ht) ho

/-- A pong ends the wait. -/
theorem Lenient.pong (h : Lenient o s) : Lenient o (s.hear true).onPong := by
  cases htimeout : s.pingTimeoutTimer with
  | none =>
      have hnone : (s.hear true).pingTimeoutTimer = none := by rw [KeepAlive.hear, htimeout]; rfl
      rw [KeepAlive.onPong, hnone]
      refine ⟨h.now_le_concat _, ?_, fun t ht => absurd (hnone.symm.trans ht) (by simp),
        fun e he => absurd (hnone.symm.trans he) (by simp), h.late_hear true,
        along_concat.mpr ⟨h.patient, fun hb => absurd hb (by simp)⟩⟩
      exact h.timeout.imp (fun hleft => ⟨hleft.1, hnone, hleft.2.2⟩) id
  | some t =>
      have ho : o ≤ s.pingTimeout := by
        refine h.timeout.resolve_left fun hnone => ?_
        rw [htimeout] at hnone
        exact absurd hnone.2.1 (by simp)
      have hsome : (s.hear true).pingTimeoutTimer = some (some (s.now + s.pingTimeout)) := by
        rw [KeepAlive.hear, htimeout]
        rfl
      rw [KeepAlive.onPong, hsome]
      refine ⟨h.now_le_concat _, Or.inr ho, fun t ht => absurd ht (by simp),
        fun e he => absurd he (by simp), fun d hd => ?_,
        along_concat.mpr ⟨h.patient, fun hb => absurd hb (by simp)⟩⟩
      rcases List.mem_append.mp hd with hd | hd
      · exact h.late_hear true d hd
      · -- a timeout of no length is over at once
        obtain ⟨hpending, hle⟩ := List.mem_filter.mp hd
        have hle : d ≤ s.now := of_decide_eq_true hle
        have hd : d = s.now + s.pingTimeout := by
          rw [hsome] at hpending
          simpa using hpending
        obtain ⟨u, hu, hall⟩ := h.unanswered t htimeout
        refine ⟨hle, fun v pong hv hlt => ?_, u, by omega, (hall d).1.concat fun _ => hle⟩
        omega

theorem Lenient.onMessage (h : Lenient o s) {p : Option Packet} {s' : KeepAlive}
    (hstep : s.onMessage p = some s')
    (hshakes : ∀ i o', Event.shakes (.message p) = some (i, o') → o ≤ o') : Lenient o s' := by
  rw [onMessage_eq] at hstep
  cases p with
  | none =>
      obtain rfl := Option.some.inj hstep
      exact h.hear
  | some p =>
      by_cases hpong : p.frame = Packet.framePong
      · simp only [hpong, decide_true, onDecode] at hstep
        obtain rfl := Option.some.inj hstep
        exact h.pong
      · simp only [hpong, decide_false, onDecode, if_false] at hstep
        split_ifs at hstep with hopen hclose
        · obtain ⟨result, hread, hresult⟩ := Option.map_eq_some_iff.mp hstep
          cases result with
          | none =>
              obtain rfl := hresult
              exact h.hear.see (by simp) fun hb => absurd hb (by simp)
          | some values =>
              obtain rfl := hresult
              have ho := hshakes values.pingInterval values.pingTimeout
                (by simp [Event.shakes, hopen, hread])
              exact ⟨h.hear.now_le, Or.inr ho, h.hear.unanswered, h.hear.silent, h.hear.late,
                h.hear.patient⟩
        · obtain rfl := Option.some.inj hstep
          exact h.hear.see (by simp) fun hb => absurd hb (by simp)
        · obtain rfl := Option.some.inj hstep
          exact h.hear

theorem lenient_step {s' : KeepAlive} {e : Event} (h : Lenient o s)
    (hstep : Generous o s e s') : Lenient o s' := by
  obtain ⟨hstep, hshakes⟩ := hstep
  cases e with
  | wait n =>
      simp only [step, Option.ite_none_right_eq_some, Option.some.injEq] at hstep
      obtain ⟨-, rfl⟩ := hstep
      refine ⟨fun e he => (h.now_le e he).trans (Nat.le_add_right _ _), h.timeout, fun t ht => ?_,
        h.silent, fun d hd => ⟨(h.late d hd).1.trans (Nat.le_add_right _ _), (h.late d hd).2⟩,
        h.patient⟩
      obtain ⟨u, hu, hall⟩ := h.unanswered t ht
      exact ⟨u, hu.trans (Nat.le_add_right _ _), hall⟩
  | resetStates =>
      simp only [step, Option.ite_none_left_eq_some, Option.some.injEq] at hstep
      obtain ⟨-, rfl⟩ := hstep
      exact ⟨h.now_le, h.timeout, h.unanswered, h.silent, h.late, h.patient⟩
  | onOpen =>
      simp only [step, Option.ite_none_left_eq_some, Option.some.injEq] at hstep
      obtain ⟨-, rfl⟩ := hstep
      exact ⟨h.now_le, h.timeout, h.unanswered, h.silent, h.late, h.patient⟩
  | onClose =>
      simp only [step, Option.ite_none_right_eq_some, Option.some.injEq] at hstep
      obtain ⟨-, rfl⟩ := hstep
      refine ⟨h.now_le, ?_, fun t ht => absurd ht (by simp [clearTimers]),
        fun e he => absurd he (by simp [clearTimers]), fun d hd => ?_, h.patient⟩
      · refine h.timeout.imp (fun hnone => ⟨rfl, rfl, ?_⟩) id
        simp [clearTimers, giveUpPing, giveUpTimeout, expired, hnone.1, hnone.2.2]
      · rcases List.mem_append.mp hd with hd | hd
        · exact h.late d hd
        · exact h.deaf_of_expired hd
  | message p =>
      simp only [step, Option.ite_none_right_eq_some] at hstep
      exact h.onMessage hstep.2 hshakes
  | ping =>
      simp only [step] at hstep
      split at hstep
      · rename_i d hd
        simp only [Option.ite_none_right_eq_some, Option.some.injEq] at hstep
        obtain ⟨-, rfl⟩ := hstep
        refine h.ping (h.timeout.resolve_left fun hnone => ?_) (some none) s.latePings
        rw [hd] at hnone
        exact absurd hnone.1 (by simp)
      · exact absurd hstep (by simp)
  | timeoutPong =>
      simp only [step] at hstep
      split at hstep
      · rename_i d hd
        simp only [Option.ite_none_right_eq_some, Option.some.injEq] at hstep
        obtain ⟨hended, rfl⟩ := hstep
        have ho : o ≤ s.pingTimeout := by
          refine h.timeout.resolve_left fun hnone => ?_
          rw [hd] at hnone
          exact absurd hnone.2.1 (by simp)
        have hfired : Lenient o { s with pingTimeoutTimer := some none } := by
          refine ⟨h.now_le, Or.inr ho, fun t ht => ?_, fun e he => absurd he (by simp), h.late,
            h.patient⟩
          obtain ⟨u, hu, hall⟩ := h.unanswered _ hd
          obtain rfl := Option.some.inj ht
          exact ⟨u, hu, fun d => ⟨(hall d).1, fun e he => absurd he (by simp)⟩⟩
        exact hfired.see (by simp) fun _ => ⟨d, hended, h.deaf hd⟩
      · exact absurd hstep (by simp)
  | latePing =>
      simp only [step, Option.ite_none_right_eq_some, Option.some.injEq] at hstep
      obtain ⟨hlate, rfl⟩ := hstep
      refine h.ping (h.timeout.resolve_left fun hnone => ?_) s.pingTimer (s.latePings - 1)
      omega
  | lateTimeoutPong =>
      simp only [step] at hstep
      split at hstep
      · rename_i d ds hd
        obtain rfl := Option.some.inj hstep
        have hkeep : Lenient o { s with lateTimeouts := ds } :=
          ⟨h.now_le, h.timeout, h.unanswered, h.silent,
            fun d' hd' => h.late d' (by rw [hd]; exact List.mem_cons_of_mem _ hd'), h.patient⟩
        exact hkeep.see (by simp) fun _ => ⟨d, h.late d (by rw [hd]; exact List.mem_cons_self)⟩
      · exact absurd hstep (by simp)

/-- **A server that answers is left alone**: with timeouts of `o` or more, whenever the
connection is asked to close for want of a pong, there has been a moment before which
nothing came in for `o` and a ping was without an answer for as long. -/
theorem patient_of_run {es : List Event} (h : Run (Generous o) init es s) :
    Along (Patient o) s.log :=
  (h.invariant (I := Lenient o) lenient_step lenient_init).patient

theorem patient_of_run_silent : ∃ s, Run (Generous 4) init exampleRun s ∧
    (14, .closing .pongTimeout) ∈ s.log ∧ Along (Patient 4) s.log := by
  obtain ⟨s, hrun, -, -, -, hclosing⟩ := exists_exampleRun
  have hrun : Run (Generous 4) init exampleRun s := hrun.guard fun e he i o h =>
    (shakes_exampleRun he h).2.ge
  exact ⟨s, hrun, hclosing, patient_of_run hrun⟩

end Lenient

end KeepAlive

end MahjongAI
