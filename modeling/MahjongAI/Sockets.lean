import MahjongAI.Acks
import MahjongAI.Client

/-!
# The Life of a Socket

A socket asks the server for its namespace each time a connection opens, queues what the
user emits until the server has confirmed the namespace, and is closed by the server, by
the user or by one of the two timeouts.

The timer of a socket is modelled by its pending wait. Cancelling the timer, replacing it
or setting its expiry again gives the wait up: its handler is then called with an error
code, or with none if the wait was over already. `timeout_connection` returns when it sees
an error; the wait of `close` is bound to `on_close`, which takes no code and closes the
socket either way. `aborted` counts the waits that were given up and whose handlers may
still be called.

What a socket sends it gives to `client_impl::send`; what becomes of it there is the subject
of `Namespaces`. Every call runs to its end before the next one, and the user holds on to the
socket: the two threads inside `send_packet` and `on_connected` are the subject of
`SocketQueue`. What the other packets do is the subject of `EventArgs` and `Acks`.

## Main results

* `Socket.Does`: what a call does to a socket, and one lemma for each call: messages are
  handed over in order or kept, a close is the last act, a close that was asked for is not
  forgotten.
* `Socket.Watched`: while the namespace is not confirmed, a wait is pending.
-/

namespace MahjongAI

/-! ### A socket -/

/-- The pending wait on `m_connection_timer`: for the confirmation of the namespace, or for
the end of a `close`. -/
inductive Wait
  | connection
  | close
  deriving DecidableEq

/-- The thread of a call: one of the user, or the network thread, on which the handlers and
the listeners run. -/
inductive Thread
  | user
  | network
  deriving DecidableEq

/-- What a socket does: a packet is given to `client_impl::send`; the listeners hear that the
socket is open or closed; the user has closed a connected socket. -/
inductive Act
  | send (p : Packet)
  | opened
  | closing
  | closed

/-- The last act of a socket. -/
def Act.isClosed : Act → Bool
  | .closed => true
  | _ => false

/-- `socket::impl`, with the handlers that wait for it in the io service. -/
structure Socket where
  /-- `m_client` is not `NULL`. -/
  client : Bool
  /-- `m_connected`. -/
  connected : Bool
  /-- `m_nsp`. -/
  nsp : List Char
  /-- `m_packet_queue`. -/
  packetQueue : List Packet
  /-- The pending wait on `m_connection_timer`. -/
  connectionTimer : Option Wait
  /-- The waits that were given up and whose handlers are to be called. -/
  aborted : Wait → ℕ

namespace Socket

/-- The constructor, up to `send_connect`. -/
def make (nsp : List Char) : Socket where
  client := true
  connected := false
  nsp := nsp
  packetQueue := []
  connectionTimer := none
  aborted := fun _ => 0

/-- The pending wait is given up. -/
def cancelTimer (k : Socket) : Socket :=
  { k with
    connectionTimer := none
    aborted := fun w => if k.connectionTimer = some w then k.aborted w + 1 else k.aborted w }

/-- `expires_from_now` and `async_wait` on the timer, or on a new one in its place. -/
def startTimer (k : Socket) (w : Wait) : Socket :=
  { k.cancelTimer with connectionTimer := some w }

/-- `send_packet`. -/
def sendPacket (k : Socket) (p : Packet) : Socket × List Act :=
  if k.client then
    if k.connected then
      ({ k with packetQueue := [] }, (k.packetQueue ++ [p]).map .send)
    else ({ k with packetQueue := k.packetQueue ++ [p] }, [])
  else (k, [])

/-- `emit`, without the callback. -/
def emit (name : List Char) (msglist : List Message) (packId : ℤ) (k : Socket) :
    Socket × List Act :=
  k.sendPacket (Packet.ofMessage k.nsp (toArrayMessage name msglist) packId false)

/-- `ack`. -/
def ack (msgId : ℤ) (ackMessage : List Message) (k : Socket) : Socket × List Act :=
  k.sendPacket (Packet.ofMessage k.nsp (.array ackMessage) msgId true)

/-- `send_connect`, which is also `on_open`. -/
def sendConnect (k : Socket) : Socket × List Act :=
  if k.client ∧ k.nsp ≠ ['/'] then
    (k.startTimer .connection, [.send (Packet.ofType Packet.typeConnect k.nsp .nullptr)])
  else (k, [])

/-- `close`. -/
def close (k : Socket) : Socket × List Act :=
  if k.client ∧ k.connected then
    let (k, acts) := k.sendPacket (Packet.ofType Packet.typeDisconnect k.nsp .nullptr)
    (k.startTimer .close, .closing :: acts)
  else (k, [])

/-- `on_connected`. -/
def onConnected (k : Socket) : Socket × List Act :=
  let k := k.cancelTimer
  if k.connected then (k, [])
  else
    ({ k with connected := true, packetQueue := [] }, .opened :: k.packetQueue.map .send)

/-- `on_close`. -/
def onClose (k : Socket) : Socket × List Act :=
  if k.client then
    ({ k.cancelTimer with client := false, connected := false, packetQueue := [] }, [.closed])
  else (k, [])

/-- `on_disconnect`. -/
def onDisconnect (k : Socket) : Socket × List Act :=
  if k.client ∧ k.connected then ({ k with connected := false, packetQueue := [] }, [])
  else (k, [])

/-- `on_message_packet`, for the packets that open and close the namespace. -/
def onMessagePacket (p : Packet) (k : Socket) : Socket × List Act :=
  if k.client ∧ p.nsp = k.nsp then
    if p.type = Packet.typeConnect then k.onConnected
    else if p.type = Packet.typeDisconnect then k.onClose
    else (k, [])
  else (k, [])

/-- The wait is over: `timeout_connection` closes the socket, and so does the end of the
wait of `close`. -/
def expire (k : Socket) : Socket × List Act :=
  { k with connectionTimer := none }.onClose

/-- The handler of a wait that was given up: `on_close`, or `timeout_connection` where the
wait was over by then. -/
def abort (w : Wait) (k : Socket) : Socket × List Act :=
  { k with aborted := Function.update k.aborted w (k.aborted w - 1) }.onClose

end Socket

/-! ### What a call of a socket does -/

/-- A packet of an event or an ack. -/
def IsMessage (p : Packet) : Prop :=
  p.type ≠ Packet.typeConnect ∧ p.type ≠ Packet.typeDisconnect

instance (p : Packet) : Decidable (IsMessage p) :=
  inferInstanceAs (Decidable (_ ∧ _))

/-- The packet that an act gives to the client. -/
def Act.packet : Act → Option Packet
  | .send p => some p
  | _ => none

/-- The message that an act takes from the socket. -/
def Act.handed : Act → Option Packet
  | .send p => if IsMessage p then some p else none
  | _ => none

theorem isMessage_ofMessage (nsp : List Char) (m : Message) (id : ℤ) (isAck : Bool) :
    IsMessage (Packet.ofMessage nsp m id isAck) := by
  cases isAck <;> simp [IsMessage, Packet.ofMessage, Packet.typeEvent, Packet.typeAck,
    Packet.typeUndetermined, Packet.typeConnect, Packet.typeDisconnect]

namespace Socket

/-- The queue holds messages of the namespace, and none once the namespace is confirmed. -/
structure Sound (k : Socket) : Prop where
  connected : k.connected = true → k.client = true ∧ k.packetQueue = []
  queue : ∀ p ∈ k.packetQueue, p.nsp = k.nsp ∧ IsMessage p

/-- The socket is going to be closed: the wait of `close` is pending, or the handler of one
that was given up is to be called. -/
def Closing (k : Socket) : Prop :=
  k.connectionTimer = some .close ∨ 0 < k.aborted .close

/-- **What a call does** to a socket `k`, where `confirmed` says whether the server has
confirmed the namespace just now and `posted` are the messages given to the call: the messages
handed over and those left in the queue are those that were there and the posted ones. -/
structure Does (k : Socket) (confirmed : Prop) (posted : List Packet) (k' : Socket)
    (acts : List Act) : Prop where
  nsp : k'.nsp = k.nsp
  sound : k'.Sound
  connected : k'.connected = true → k.connected = true ∨ confirmed
  ends : (acts = [.closed] ∧ k.client = true ∧ k'.client = false) ∨
    (.closed ∉ acts ∧ k'.client = k.client)
  dead : k.client = false → acts = []
  sends : ∀ p, .send p ∈ acts → p.nsp = k.nsp ∧
    (p.type ≠ Packet.typeConnect → k'.connected = true)
  handed : k'.client = true → acts.filterMap Act.handed ++ k'.packetQueue = k.packetQueue ++ posted
  closing : k'.client = true → k.Closing ∨ .closing ∈ acts → k'.Closing

variable {k : Socket} {confirmed : Prop}

/-- Nothing happens. -/
theorem Does.refl (h : k.Sound) : Does k confirmed [] k [] where
  nsp := rfl
  sound := h
  connected := Or.inl
  ends := Or.inr ⟨by simp, rfl⟩
  dead := fun _ => rfl
  sends := by simp
  handed := by simp
  closing := fun _ hclosing => hclosing.resolve_right (by simp)

/-- A socket without its client lets messages go by. -/
theorem Does.of_dead (h : k.Sound) (hdead : k.client = false) (posted : List Packet) :
    Does k confirmed posted k [] :=
  { Does.refl h with handed := fun hclient => by simp [hdead] at hclient }

/-- All messages of a sequence are handed over. -/
theorem handed_sends {ps : List Packet} (h : ∀ p ∈ ps, IsMessage p) :
    (ps.map .send).filterMap Act.handed = ps := by
  induction ps with
  | nil => rfl
  | cons p ps ih =>
      have hp : (Act.send p).handed = some p := if_pos (h p (by simp))
      rw [List.map_cons, List.filterMap_cons_some hp,
        ih fun q hq => h q (List.mem_cons_of_mem p hq)]

theorem closing_cancelTimer (h : k.Closing) : 0 < k.cancelTimer.aborted .close := by
  simp only [cancelTimer]
  rcases h with htimer | haborted
  · rw [if_pos htimer]
    omega
  · split <;> omega

/-- **`send_packet`** hands the message over or queues it. -/
theorem does_sendPacket (h : k.Sound) {p : Packet} (hnsp : p.nsp = k.nsp) (hp : IsMessage p) :
    Does k False [p] (k.sendPacket p).1 (k.sendPacket p).2 := by
  rw [sendPacket]
  by_cases hclient : k.client = true
  · rw [if_pos hclient]
    by_cases hconnected : k.connected = true
    · have hempty := (h.connected hconnected).2
      rw [if_pos hconnected, hempty, List.nil_append]
      refine ⟨rfl, ⟨fun _ => ⟨hclient, rfl⟩, by simp⟩, fun _ => Or.inl hconnected,
        Or.inr ⟨by simp, rfl⟩, fun hdead => ?_, fun q hq => ?_, fun _ => ?_,
        fun _ hclosing => hclosing.resolve_right (by simp)⟩
      · rw [hclient] at hdead
        exact absurd hdead (by simp)
      · obtain rfl : q = p := by simpa using hq
        exact ⟨hnsp, fun _ => hconnected⟩
      · rw [handed_sends (by simpa using hp), hempty, List.append_nil, List.nil_append]
    · rw [if_neg hconnected]
      refine ⟨rfl, ⟨fun hc => absurd hc hconnected, fun q hq => ?_⟩,
        fun hc => absurd hc hconnected, Or.inr ⟨by simp, rfl⟩, fun _ => rfl, by simp,
        fun _ => rfl, fun _ hclosing => hclosing.resolve_right (by simp)⟩
      rcases List.mem_append.mp hq with hq | hq
      · exact h.queue q hq
      · obtain rfl := List.mem_singleton.mp hq
        exact ⟨hnsp, hp⟩
  · rw [if_neg hclient]
    exact Does.of_dead h (by simpa using hclient) [p]

/-- **`send_connect`** asks for the namespace. -/
theorem does_sendConnect (h : k.Sound) :
    Does k False [] k.sendConnect.1 k.sendConnect.2 := by
  rw [sendConnect]
  by_cases hclient : k.client = true ∧ k.nsp ≠ ['/']
  · rw [if_pos hclient]
    have hnot : ¬IsMessage (Packet.ofType Packet.typeConnect k.nsp .nullptr) := fun hp => hp.1 rfl
    refine ⟨rfl, ⟨h.connected, h.queue⟩, Or.inl, Or.inr ⟨by simp, rfl⟩, fun hdead => ?_,
      fun q hq => ?_, fun _ => ?_, fun _ hclosing => ?_⟩
    · rw [hclient.1] at hdead
      exact absurd hdead (by simp)
    · obtain rfl : q = Packet.ofType Packet.typeConnect k.nsp .nullptr := by simpa using hq
      exact ⟨rfl, fun hne => absurd rfl hne⟩
    · have hnone : Act.handed (.send (Packet.ofType Packet.typeConnect k.nsp .nullptr)) = none := by
        simp [Act.handed, hnot]
      rw [List.filterMap_cons_none hnone, List.append_nil]
      rfl
    · exact Or.inr (closing_cancelTimer (hclosing.resolve_right (by simp)))
  · rw [if_neg hclient]
    exact Does.refl h

/-- **`on_connected`** opens the namespace and hands the queue over. -/
theorem does_onConnected (h : k.Sound) (hclient : k.client = true) :
    Does k True [] k.onConnected.1 k.onConnected.2 := by
  rw [onConnected]
  by_cases hconnected : k.connected = true
  · rw [if_pos (show k.cancelTimer.connected = true from hconnected)]
    exact ⟨rfl, ⟨h.connected, h.queue⟩, Or.inl, Or.inr ⟨by simp, rfl⟩, fun _ => rfl, by simp,
      fun _ => by simp [cancelTimer],
      fun _ hclosing => Or.inr (closing_cancelTimer (hclosing.resolve_right (by simp)))⟩
  · rw [if_neg (show ¬k.cancelTimer.connected = true from hconnected)]
    have hqueue : k.cancelTimer.packetQueue = k.packetQueue := rfl
    rw [hqueue]
    refine ⟨rfl, ⟨fun _ => ⟨hclient, rfl⟩, by simp⟩, fun _ => Or.inr trivial,
      Or.inr ⟨by simp, rfl⟩, fun hdead => ?_, fun q hq => ?_, fun _ => ?_, fun _ hclosing => ?_⟩
    · rw [hclient] at hdead
      exact absurd hdead (by simp)
    · have hq : q ∈ k.packetQueue := by simpa using hq
      exact ⟨(h.queue q hq).1, fun _ => rfl⟩
    · have hnone : Act.opened.handed = none := rfl
      rw [List.filterMap_cons_none hnone, handed_sends fun q hq => (h.queue q hq).2]
    · exact Or.inr (closing_cancelTimer (hclosing.resolve_right (by simp)))

/-- **`on_close`** is the end of a socket, whatever its timer did before. -/
theorem does_onClose (h : k.Sound) {k' : Socket} (hclient : k'.client = k.client)
    (hconnected : k'.connected = k.connected) (hnsp : k'.nsp = k.nsp)
    (hqueue : k'.packetQueue = k.packetQueue) :
    Does k confirmed [] k'.onClose.1 k'.onClose.2 := by
  rw [onClose]
  by_cases hlive : k'.client = true
  · rw [if_pos hlive]
    have hlive' : k.client = true := by rw [← hclient, hlive]
    refine ⟨hnsp, ⟨by simp, by simp⟩, by simp, Or.inl ⟨rfl, hlive', rfl⟩, fun hfalse => ?_,
      by simp, by simp, by simp⟩
    rw [hlive'] at hfalse
    exact absurd hfalse (by simp)
  · rw [if_neg hlive]
    have hfalse : k.client = false := by
      rw [← hclient]
      simpa using hlive
    refine ⟨hnsp, ⟨fun hc => ?_, by rw [hqueue, hnsp]; exact h.queue⟩,
      fun hc => Or.inl (hconnected ▸ hc), Or.inr ⟨by simp, hclient⟩, fun _ => rfl, by simp,
      fun hc => absurd hc hlive, fun hc => absurd hc hlive⟩
    rw [hconnected] at hc
    rw [(h.connected hc).1] at hfalse
    exact absurd hfalse (by simp)

/-- **`on_disconnect`**: a connected socket has nothing in its queue to lose. -/
theorem does_onDisconnect (h : k.Sound) :
    Does k False [] k.onDisconnect.1 k.onDisconnect.2 := by
  rw [onDisconnect]
  by_cases hconnected : k.client = true ∧ k.connected = true
  · rw [if_pos hconnected]
    have hempty := (h.connected hconnected.2).2
    refine ⟨rfl, ⟨by simp, by simp⟩, by simp, Or.inr ⟨by simp, rfl⟩, fun _ => rfl, by simp,
      fun _ => by simp [hempty], fun _ hclosing => hclosing.resolve_right (by simp)⟩
  · rw [if_neg hconnected]
    exact Does.refl h

/-- **`close`** of a connected socket starts the wait that ends in `on_close`. -/
theorem does_close (h : k.Sound) : Does k False [] k.close.1 k.close.2 := by
  rw [close]
  by_cases hconnected : k.client = true ∧ k.connected = true
  · rw [if_pos hconnected]
    obtain ⟨hclient, hconnected⟩ := hconnected
    have hempty := (h.connected hconnected).2
    let p := Packet.ofType Packet.typeDisconnect k.nsp .nullptr
    have hdisconnect : ¬IsMessage p := fun hp => hp.2 rfl
    have hsend : k.sendPacket p = ({ k with packetQueue := [] }, [.send p]) := by
      rw [sendPacket, if_pos hclient, if_pos hconnected, hempty, List.nil_append]
      rfl
    simp only [show Packet.ofType Packet.typeDisconnect k.nsp .nullptr = p from rfl, hsend]
    refine ⟨rfl, ⟨fun _ => ⟨hclient, rfl⟩, by simp [startTimer, cancelTimer]⟩,
      fun _ => Or.inl hconnected, Or.inr ⟨by simp, rfl⟩, fun hdead => ?_, fun q hq => ?_,
      fun _ => ?_, fun _ _ => Or.inl rfl⟩
    · rw [hclient] at hdead
      exact absurd hdead (by simp)
    · obtain rfl : q = p := by simpa using hq
      exact ⟨rfl, fun _ => hconnected⟩
    · have hclosing : Act.closing.handed = none := rfl
      have hnone : Act.handed (.send p) = none := by simp [Act.handed, hdisconnect]
      rw [List.filterMap_cons_none hclosing, List.filterMap_cons_none hnone, hempty]
      rfl
  · rw [if_neg hconnected]
    exact Does.refl h

/-- **`on_message_packet`**, where the packet may confirm the namespace. -/
theorem does_onMessagePacket (h : k.Sound) (p : Packet) :
    Does k (p.type = Packet.typeConnect ∧ p.nsp = k.nsp) [] (k.onMessagePacket p).1
      (k.onMessagePacket p).2 := by
  rw [onMessagePacket]
  split_ifs with hhere hconnect hdisconnect
  · have hdoes := does_onConnected h hhere.1
    exact { hdoes with connected := fun hc => (hdoes.connected hc).imp_right fun _ =>
      ⟨hconnect, hhere.2⟩ }
  · exact does_onClose h rfl rfl rfl rfl
  · exact Does.refl h
  · exact Does.refl h

/-- The end of a wait. -/
theorem does_expire (h : k.Sound) : Does k False [] k.expire.1 k.expire.2 :=
  does_onClose h rfl rfl rfl rfl

/-- The handler of a wait that was given up. -/
theorem does_abort (h : k.Sound) (w : Wait) : Does k False [] (k.abort w).1 (k.abort w).2 :=
  does_onClose h rfl rfl rfl rfl

/-- The socket has its namespace, or a wait is pending. The namespace `/` needs no
question. -/
def Watched (k : Socket) : Prop :=
  k.client = true → k.nsp ≠ ['/'] → k.connected = true ∨ k.connectionTimer.isSome = true

theorem watched_sendPacket (h : k.Watched) (p : Packet) : (k.sendPacket p).1.Watched := by
  rw [sendPacket]
  split
  · split
    · exact h
    · exact h
  · exact h

theorem watched_sendConnect (h : k.Watched) : k.sendConnect.1.Watched := by
  rw [sendConnect]
  split
  · exact fun _ _ => Or.inr rfl
  · exact h

theorem watched_close (h : k.Watched) : k.close.1.Watched := by
  rw [close]
  split
  · exact fun _ _ => Or.inr rfl
  · exact h

theorem watched_onClose (k : Socket) : k.onClose.1.Watched := by
  rw [onClose]
  split
  · exact fun hclient => absurd hclient (by simp)
  · rename_i hclient
    exact fun hclient' => absurd hclient' hclient

theorem watched_onMessagePacket (h : k.Watched) (p : Packet) :
    (k.onMessagePacket p).1.Watched := by
  rw [onMessagePacket]
  split_ifs
  · rw [onConnected]
    split
    · rename_i hconnected
      exact fun _ _ => Or.inl hconnected
    · exact fun _ _ => Or.inl rfl
  · exact watched_onClose k
  · exact h
  · exact h

end Socket

end MahjongAI
