import MahjongAI.EventArgs
import MahjongAI.Handshake
import MahjongAI.PacketStream
import MahjongAI.Sockets

/-!
# A Client on an Open Connection

An emit becomes a packet, the packet waits for its namespace or is handed to
`client_impl::send`, which makes payloads of it; a payload that comes in completes a packet,
and the packet calls a listener or a callback, which may emit in turn. `Endpoint.step` puts
these together with the code of the client: `emit`, `send_packet`, the encoder, the packet
manager, `on_decode`, `on_message_packet`, `on_socketio_event`, `ack` and `on_socketio_ack`.

`on_encode` gives each payload to `dispatch`: on the network thread, on which the listeners
and the callbacks run, `send_impl` sends it at once; a call on another thread posts it, and
`run` is the next `send_impl` that was posted. So the payloads of the two threads may mix, and
those of the network thread overtake the others.

The other end of the connection sends whatever payloads it likes, `receive` by `receive`. The
calls of the user run to their end one at a time, the connection stays open, the sockets were
made and the listeners bound before, and no namespace is closed; what happens otherwise is the
subject of `SocketQueue`, `Client` and `Namespaces`. The listeners for the opening of a socket
and for errors do nothing.

## Main results

* `Endpoint.Inv`: every packet is handed over or waits in its queue, every payload is sent or
  waits to be, and the callbacks match their acks.
* `Endpoint.exact_of_run`: **nothing is lost, doubled or changed**, in either direction.
* `Endpoint.settles_of_run`: **no call is left open**: what was posted is sent, and an ack finds
  the callback of its emit.
-/

open Runs MahjongAI.Json

namespace MahjongAI

/-- `frame_close`. -/
def Packet.frameClose : ℤ := 1

/-! ### The client -/

/-- An emit. -/
structure Emission (S C : Type*) where
  socket : S
  name : List Char
  msglist : List Message
  ack : Option C

/-- What a socket has to send: an emit, with the id of its packet, or the ack of an event. -/
inductive Saying (S C : Type*)
  | emit (e : Emission S C) (packId : ℤ)
  | ack (s : S) (msgId : ℤ) (ackMessage : List Message)

/-- An event that has come in: its id, what is handed to the listener, and the listener that is
bound to its name. -/
structure Delivery (S L : Type*) where
  socket : S
  msgId : ℤ
  event : SioEvent
  listener : Option L

/-- The code of the user that a payload calls, if it calls any. -/
inductive Call (S C L : Type*)
  | nobody
  | event (d : Delivery S L)
  | ack (l : C) (args : List Message)

/-- What the user does when called: emits on the network thread, and what a listener leaves in
the ack message. -/
structure Response (S C : Type*) where
  emits : List (Emission S C)
  answer : List Message

/-- A client whose connection is open, and what has been seen of it so far. -/
structure Endpoint (S C L : Type*) where
  /-- The ids and the callbacks. -/
  acks : Acks.Sockets S C
  socket : S → Socket
  manager : PacketManager
  /-- The payloads whose `send_impl` was posted and has not run. -/
  posted : List (List Char)
  /-- The payloads that were sent, each with the thread of its packet, or without one if it is
  a ping. -/
  wire : List (Option Thread × List Char)
  /-- The emits and acks, in the order of the calls. -/
  said : List (Saying S C)
  /-- The packets handed to `client_impl::send`, in the order of the calls. -/
  handed : List (Thread × S × Packet)
  /-- The payloads that came in. -/
  received : List (List Char)
  heard : List (Delivery S L)
  /-- The emits with their packets, and the acks with the callbacks that they called. -/
  history : List (Acks.Entry S C)

namespace Saying

variable {S C : Type*}

def socket : Saying S C → S
  | emit e _ => e.socket
  | ack s _ _ => s

/-- The packet that goes to `send_packet`. -/
def packet (nsp : S → List Char) : Saying S C → Packet
  | emit e packId =>
      Packet.ofMessage (nsp e.socket) (toArrayMessage e.name e.msglist) packId false
  | ack s msgId ackMessage => Packet.ofMessage (nsp s) (.array ackMessage) msgId true

def emission : Saying S C → Option (Emission S C)
  | emit e _ => some e
  | ack _ _ _ => none

end Saying

/-- Somebody is called. -/
def Call.isUser {S C L : Type*} : Call S C L → Bool
  | nobody => false
  | event d => d.listener.isSome
  | ack _ _ => true

namespace Endpoint

/-- What does not change while the connection is open. -/
structure Setup (S L : Type*) where
  dtoa : Float → List Char
  /-- `m_nsp`. -/
  nsp : S → List Char
  /-- `m_sockets`. -/
  sockets : List Char → Option S
  /-- `m_event_binding`. -/
  eventBinding : S → List Char → Option L
  isNamespace : ∀ s, IsNamespace (nsp s)

variable {S C L : Type*}

/-- The user emits, the next `send_impl` runs, the client pings, or a payload comes in, and the
user responds if called. -/
inductive Event (S C : Type*)
  | emit (e : Emission S C)
  | run
  | ping
  | receive (payload : List Char) (r : Response S C)

section Step

variable (c : Setup S L)

/-- The namespaces are asked for, and nothing else has happened. -/
def init : Endpoint S C L where
  acks := Acks.Sockets.init
  socket := fun s => Socket.make (c.nsp s)
  manager := PacketManager.fresh
  posted := []
  wire := []
  said := []
  handed := []
  received := []
  heard := []
  history := []

/-! ### Sending -/

/-- `client_impl::send`, for a packet of the socket `s`: `on_encode` of each payload. -/
def send (t : Thread) (s : S) (w : Endpoint S C L) (p : Packet) : Option (Endpoint S C L) :=
  (PacketManager.encode c.dtoa p).map fun (_, payloads) =>
    let w := { w with handed := w.handed ++ [(t, s, p)] }
    match t with
    | .user => { w with posted := w.posted ++ payloads }
    | .network => { w with wire := w.wire ++ payloads.map (some .network, ·) }

/-- The next `send_impl` that was posted. -/
def run (w : Endpoint S C L) : Option (Endpoint S C L) :=
  match w.posted with
  | [] => none
  | payload :: rest => some { w with posted := rest, wire := w.wire ++ [(some .user, payload)] }

/-- `client_impl::ping`, as far as the payload goes. -/
def ping (w : Endpoint S C L) : Option (Endpoint S C L) :=
  (PacketManager.encode c.dtoa (Packet.ofFrame Packet.framePing)).map fun (_, payloads) =>
    { w with wire := w.wire ++ payloads.map (none, ·) }

variable [DecidableEq S]

/-- What a call of a socket hands over. -/
def act (t : Thread) (s : S) (w : Endpoint S C L) (r : Socket × List Act) :
    Option (Endpoint S C L) :=
  (r.2.filterMap Act.packet).foldlM (send c t s)
    { w with socket := Function.update w.socket s r.1 }

/-- `socket::impl::emit`. -/
def emit (t : Thread) (w : Endpoint S C L) (e : Emission S C) : Option (Endpoint S C L) :=
  let (acks, p) := Acks.emit (c.nsp e.socket) w.acks e.socket e.name e.msglist e.ack
  act c t e.socket
    { w with
      acks := acks
      said := w.said ++ [.emit e p.packId]
      history := w.history ++ [.sent e.socket e.ack p] }
    ((w.socket e.socket).sendPacket p)

/-- `socket::impl::ack`. -/
def ack (w : Endpoint S C L) (s : S) (msgId : ℤ) (ackMessage : List Message) :
    Option (Endpoint S C L) :=
  act c .network s { w with said := w.said ++ [.ack s msgId ackMessage] }
    ((w.socket s).ack msgId ackMessage)

/-! ### Receiving -/

/-- `socket::impl::on_message_packet`, up to the code of the user. -/
def onMessagePacket (w : Endpoint S C L) (s : S) (p : Packet) :
    Option (Endpoint S C L × Call S C L) :=
  match MahjongAI.onMessagePacket (c.nsp s) p with
  | none => none
  | some .connected => (act c .network s w (w.socket s).onConnected).map (·, .nobody)
  | some .closed => none
  | some (.event packId name args) =>
      let msgId := (Packet.getPackId packId).toInt
      let ev : SioEvent := ⟨c.nsp s, name, args, decide (0 ≤ msgId)⟩
      let d : Delivery S L := ⟨s, msgId, ev, c.eventBinding s name⟩
      some ({ w with heard := w.heard ++ [d] }, .event d)
  | some (.ack packId args) =>
      -- the id of a packet that was parsed is an `int`
      if hid : p.HasIntId then
        let (acks, l) := Acks.onSocketioAck w.acks s (Packet.getPackId packId).toInt
        some ({ w with
            acks := acks
            history := w.history ++ [.received s ⟨p, hid⟩ (l.map (·, args))] },
          l.elim .nobody (.ack · args))
      else none
  | some (.error _) | some .ignored => some (w, .nobody)

/-- `client_impl::on_decode`. A handshake that fails and a close frame end the connection. -/
def onDecode (w : Endpoint S C L) (p : Packet) : Option (Endpoint S C L × Call S C L) :=
  if p.frame = Packet.frameMessage then
    match c.sockets p.nsp with
    | some s => onMessagePacket c w s p
    | none => some (w, .nobody)
  else if p.frame = Packet.frameOpen then
    match readHandshake p.message with
    | some (some _) => some (w, .nobody)
    | _ => none
  else if p.frame = Packet.frameClose then none
  else some (w, .nobody)

/-- `put_payload`. -/
def take [LexicalCast] (w : Endpoint S C L) (payload : List Char) :
    Option (Endpoint S C L × Call S C L) :=
  (w.manager.putPayload payload).bind fun (m, out) =>
    let w := { w with manager := m, received := w.received ++ [payload] }
    match out with
    | some p => onDecode c w p
    | none => some (w, .nobody)

/-- The user responds to a call, and `on_socketio_event` sends the ack message. -/
def respond (w : Endpoint S C L) (call : Call S C L) (r : Response S C) :
    Option (Endpoint S C L) :=
  let r := if call.isUser then r else ⟨[], []⟩
  (r.emits.foldlM (emit c .network) w).bind fun w =>
    match call with
    | .event d => if 0 ≤ d.msgId then ack c w d.socket d.msgId r.answer else some w
    | _ => some w

/-- One event. -/
def step [LexicalCast] (w : Endpoint S C L) : Event S C → Option (Endpoint S C L)
  | .emit e => emit c .user w e
  | .run => w.run
  | .ping => w.ping c
  | .receive payload r => (take c w payload).bind fun (w, call) => respond c w call r

end Step

/-! ### What is handed over -/

/-- The payloads of a packet. -/
def payloads (dtoa : Float → List Char) (p : Packet) : List (List Char) :=
  ((PacketManager.encode dtoa p).map Prod.snd).getD []

/-- The packets that calls on a thread handed over. -/
def packetsOn (w : Endpoint S C L) (t : Thread) : List Packet :=
  (part t w.handed).map Prod.snd

/-- The packets that a socket handed over. -/
def packetsOf [DecidableEq S] (w : Endpoint S C L) (s : S) : List Packet :=
  part s (w.handed.map Prod.snd)

/-- The payloads that were sent for the calls on a thread, or pings. -/
def sentOn (w : Endpoint S C L) (t : Option Thread) : List (List Char) :=
  part t w.wire

/-- The payloads for the calls on a thread whose `send_impl` was posted. -/
def postedOn (w : Endpoint S C L) : Thread → List (List Char)
  | .user => w.posted
  | .network => []

/-- Packets of a socket are handed over on a thread. -/
def give (w : Endpoint S C L) (c : Setup S L) (t : Thread) (s : S) (ps : List Packet) :
    Endpoint S C L :=
  let sent := ps.flatMap (payloads c.dtoa)
  { w with
    handed := w.handed ++ ps.map fun p => (t, s, p)
    posted := w.posted ++ if t = .user then sent else []
    wire := w.wire ++ if t = .network then sent.map (some .network, ·) else [] }

section Give

variable {c : Setup S L} {w w' : Endpoint S C L} {t : Thread} {s : S} {p : Packet}
  {ps : List Packet}

theorem send_eq_some_iff :
    send c t s w p = some w' ↔
      (PacketManager.encode c.dtoa p).isSome = true ∧ w' = w.give c t s [p] := by
  rw [send, give, List.flatMap_singleton, payloads]
  cases PacketManager.encode c.dtoa p with
  | none => simp
  | some encoded => cases t <;> simp [eq_comm]

theorem give_nil : w.give c t s [] = w := by
  simp [give]

theorem give_give (ps qs : List Packet) :
    (w.give c t s ps).give c t s qs = w.give c t s (ps ++ qs) := by
  cases t <;> simp [give]

/-- **Handing over packets** one after the other. -/
theorem foldlM_send_eq_some_iff :
    ps.foldlM (send c t s) w = some w' ↔
      (∀ p ∈ ps, (PacketManager.encode c.dtoa p).isSome = true) ∧ w' = w.give c t s ps := by
  induction ps generalizing w with
  | nil =>
      rw [give_nil]
      exact ⟨fun h => ⟨by simp, (Option.some.inj h).symm⟩, fun h => congrArg some h.2.symm⟩
  | cons p ps ih =>
      rw [List.foldlM_cons, Option.bind_eq_bind, Option.bind_eq_some_iff]
      simp only [send_eq_some_iff, ih, List.forall_mem_cons]
      constructor
      · rintro ⟨v, ⟨hp, rfl⟩, hps, rfl⟩
        exact ⟨⟨hp, hps⟩, give_give [p] ps⟩
      · rintro ⟨⟨hp, hps⟩, rfl⟩
        exact ⟨_, ⟨hp, rfl⟩, hps, (give_give [p] ps).symm⟩

theorem packetsOn_give (t' : Thread) :
    (w.give c t s ps).packetsOn t' = w.packetsOn t' ++ if t = t' then ps else [] := by
  rw [packetsOn, give, part_append, part_map, List.map_append]
  by_cases ht : t = t' <;> simp [packetsOn, ht]

theorem packetsOf_give [DecidableEq S] (s' : S) :
    (w.give c t s ps).packetsOf s' = w.packetsOf s' ++ if s = s' then ps else [] := by
  have hlabel := part_map s' s id ps
  rw [packetsOf, give, List.map_append, part_append, List.map_map]
  exact congrArg (part s' (w.handed.map Prod.snd) ++ ·) (hlabel.trans (by rw [List.map_id]))

/-- What is handed over on a thread is sent or posted. -/
theorem sentOn_give (t' : Thread) (hpaid : w.sentOn (some t') ++ w.postedOn t' =
      (w.packetsOn t').flatMap (payloads c.dtoa)) :
    (w.give c t s ps).sentOn (some t') ++ (w.give c t s ps).postedOn t' =
      ((w.give c t s ps).packetsOn t').flatMap (payloads c.dtoa) := by
  rw [packetsOn_give, List.flatMap_append, ← hpaid, sentOn, give, part_append]
  cases t <;> cases t' <;> simp [sentOn, postedOn, part]

theorem sentOn_give_none : (w.give c t s ps).sentOn none = w.sentOn none := by
  rw [sentOn, give, part_append]
  cases t <;> simp [sentOn, part]

end Give

/-! ### What is kept -/

/-- A call of a socket hands its queue and the new packets over, or keeps them. -/
structure Hands (k : Socket) (new : List Packet) (r : Socket × List Act) : Prop where
  nsp : r.1.nsp = k.nsp
  client : r.1.client = true
  queue : r.1.connected = true → r.1.packetQueue = []
  packets : r.2.filterMap Act.packet ++ r.1.packetQueue = k.packetQueue ++ new

theorem filterMap_packet_sends (ps : List Packet) : (ps.map .send).filterMap Act.packet = ps := by
  rw [List.filterMap_map]
  exact List.filterMap_some

theorem hands_sendPacket {k : Socket} (hclient : k.client = true) (p : Packet) :
    Hands k [p] (k.sendPacket p) := by
  rw [Socket.sendPacket, if_pos hclient]
  by_cases hconnected : k.connected = true
  · rw [if_pos hconnected]
    exact ⟨rfl, hclient, fun _ => rfl, by simp only [filterMap_packet_sends, List.append_nil]⟩
  · rw [if_neg hconnected]
    exact ⟨rfl, hclient, fun h => absurd h hconnected, rfl⟩

theorem hands_onConnected {k : Socket} (hclient : k.client = true)
    (hqueue : k.connected = true → k.packetQueue = []) : Hands k [] k.onConnected := by
  have hcancel : k.cancelTimer.connected = k.connected := rfl
  rw [Socket.onConnected]
  simp only [hcancel]
  by_cases hconnected : k.connected = true
  · rw [if_pos hconnected]
    exact ⟨rfl, hclient, hqueue, by simp [Socket.cancelTimer]⟩
  · rw [if_neg hconnected]
    refine ⟨rfl, hclient, fun _ => rfl, ?_⟩
    rw [List.filterMap_cons_none rfl, filterMap_packet_sends]
    rfl

/-- **The books are balanced**: what a socket has said it has handed over or still keeps, and
what was handed over on a thread is sent or posted. -/
structure Balanced (c : Setup S L) [DecidableEq S] (w : Endpoint S C L) : Prop where
  nsp : ∀ s, (w.socket s).nsp = c.nsp s
  client : ∀ s, (w.socket s).client = true
  queue : ∀ s, (w.socket s).connected = true → (w.socket s).packetQueue = []
  handed : ∀ s, w.packetsOf s ++ (w.socket s).packetQueue =
    (w.said.filter (·.socket = s)).map (Saying.packet c.nsp)
  sent : ∀ t, w.sentOn (some t) ++ w.postedOn t =
    (w.packetsOn t).flatMap (payloads c.dtoa)
  pings : ∀ x ∈ w.sentOn none, x ∈ payloads c.dtoa (Packet.ofFrame Packet.framePing)

/-- A change that the books do not show. -/
structure Aside (w w' : Endpoint S C L) : Prop where
  socket : w'.socket = w.socket
  posted : w'.posted = w.posted
  wire : w'.wire = w.wire
  handed : w'.handed = w.handed

section Balanced

variable [DecidableEq S] {c : Setup S L} {w w' : Endpoint S C L}

theorem act_eq_some {t : Thread} {s : S} {r : Socket × List Act}
    (h : act c t s w r = some w') :
    w' = ({ w with socket := Function.update w.socket s r.1 } : Endpoint S C L).give c t s
      (r.2.filterMap Act.packet) :=
  (foldlM_send_eq_some_iff.mp h).2

/-- **A call of a socket** keeps the books balanced; `new` is what the socket says. -/
theorem Balanced.act {v : Endpoint S C L} (h : w.Balanced c) (haside : Aside w v) {t : Thread}
    {s : S} {new : List (Saying S C)} (hsaid : v.said = w.said ++ new)
    (hnew : ∀ x ∈ new, x.socket = s) {r : Socket × List Act}
    (hr : Hands (w.socket s) (new.map (Saying.packet c.nsp)) r)
    (hact : Endpoint.act c t s v r = some w') : w'.Balanced c := by
  obtain ⟨hsocket, hposted, hwire, hhanded⟩ := haside
  rw [act_eq_some hact]
  have hself : Function.update v.socket s r.1 s = r.1 := Function.update_self ..
  have hother : ∀ s', s' ≠ s → Function.update v.socket s r.1 s' = w.socket s' :=
    fun s' hs => by rw [Function.update_of_ne hs, hsocket]
  have hpackets : ∀ s', ({ v with socket := Function.update v.socket s r.1 } :
      Endpoint S C L).packetsOf s' = w.packetsOf s' := fun s' => by
    rw [packetsOf, packetsOf, hhanded]
  refine ⟨fun s' => ?_, fun s' => ?_, fun s' => ?_, fun s' => ?_, fun t' => ?_, ?_⟩
  · rcases eq_or_ne s' s with rfl | hs
    · exact (congrArg Socket.nsp hself).trans (hr.nsp.trans (h.nsp s'))
    · exact (congrArg Socket.nsp (hother s' hs)).trans (h.nsp s')
  · rcases eq_or_ne s' s with rfl | hs
    · exact (congrArg Socket.client hself).trans hr.client
    · exact (congrArg Socket.client (hother s' hs)).trans (h.client s')
  · change (Function.update v.socket s r.1 s').connected = true →
      (Function.update v.socket s r.1 s').packetQueue = []
    rcases eq_or_ne s' s with rfl | hs
    · rw [hself]
      exact hr.queue
    · rw [hother s' hs]
      exact h.queue s'
  · change _ ++ (Function.update v.socket s r.1 s').packetQueue =
      (v.said.filter (·.socket = s')).map (Saying.packet c.nsp)
    rw [packetsOf_give, hpackets, hsaid, List.filter_append, List.map_append, ← h.handed s']
    rcases eq_or_ne s' s with rfl | hs
    · have hall : new.filter (·.socket = s') = new :=
        List.filter_eq_self.mpr fun x hx => by simpa using hnew x hx
      rw [hself, if_pos rfl, hall, List.append_assoc, hr.packets, List.append_assoc]
    · have hnone : new.filter (·.socket = s') = [] :=
        List.filter_eq_nil_iff.mpr fun x hx => by simpa [hnew x hx] using hs.symm
      rw [hother s' hs, if_neg hs.symm, hnone]
      simp
  · refine sentOn_give t' ?_
    have hsent := h.sent t'
    cases t' <;> simpa [sentOn, postedOn, packetsOn, hposted, hwire, hhanded] using hsent
  · rw [sentOn_give_none, sentOn, hwire]
    exact h.pings

end Balanced

/-! ### What comes in -/

/-- What a packet has a socket do. -/
def handling (c : Setup S L) (p : Packet) : Option (S × Handling) :=
  if p.frame = Packet.frameMessage then
    (c.sockets p.nsp).bind fun s => (MahjongAI.onMessagePacket (c.nsp s) p).map (s, ·)
  else none

/-- The event that a packet is. -/
def deliveryOf (c : Setup S L) (p : Packet) : Option (Delivery S L) :=
  (handling c p).bind fun
    | (s, .event packId name args) =>
        let msgId := (Packet.getPackId packId).toInt
        some ⟨s, msgId, ⟨c.nsp s, name, args, decide (0 ≤ msgId)⟩, c.eventBinding s name⟩
    | _ => none

/-- The ack that a packet is. -/
def replyOf (c : Setup S L) (p : Packet) : Option (S × Packet) :=
  (handling c p).bind fun
    | (s, .ack _ _) => some (s, p)
    | _ => none

/-- The ack of an entry. -/
def arrived : Acks.Entry S C → Option (S × Packet)
  | .sent _ _ _ => none
  | .received s q _ => some (s, q.1)

/-- A payload was taken by the manager. -/
def taking (w : Endpoint S C L) (payload : List Char) (m : PacketManager) : Endpoint S C L :=
  { w with manager := m, received := w.received ++ [payload] }

/-- **What a payload does**, by the packet `out` that it completes. -/
inductive Takes [DecidableEq S] (c : Setup S L) (v : Endpoint S C L) (out : Option Packet) :
    Endpoint S C L → Call S C L → Prop
  | silent (hevent : out.bind (deliveryOf c) = none) (hack : out.bind (replyOf c) = none) :
      Takes c v out v .nobody
  | confirmed {s : S} {w' : Endpoint S C L} (hevent : out.bind (deliveryOf c) = none)
      (hack : out.bind (replyOf c) = none)
      (heq : act c .network s v (v.socket s).onConnected = some w') :
      Takes c v out w' .nobody
  | event {d : Delivery S L} (hevent : out.bind (deliveryOf c) = some d)
      (hack : out.bind (replyOf c) = none) (hid : d.msgId < 2 ^ 31) :
      Takes c v out { v with heard := v.heard ++ [d] } (.event d)
  | ack {q : Acks.Received} {s : S} {args : List Message} {acks : Acks.Sockets S C}
      {l : Option C} (hp : out = some q.1) (hevent : deliveryOf c q.1 = none)
      (hack : replyOf c q.1 = some (s, q.1))
      (hargs : MahjongAI.onMessagePacket (c.nsp s) q.1 = some (.ack q.1.packId args))
      (heq : Acks.onSocketioAck v.acks s (Packet.getPackId q.1.packId).toInt = (acks, l)) :
      Takes c v out
        { v with acks := acks, history := v.history ++ [.received s q (l.map (·, args))] }
        (l.elim .nobody (.ack · args))

section Take

variable [DecidableEq S] {c : Setup S L} {w v w' : Endpoint S C L} {call : Call S C L}

theorem takes_onDecode {p : Packet} (h : onDecode c v p = some (w', call)) :
    Takes c v (some p) w' call := by
  have hnone : handling c p = none → (some p).bind (deliveryOf c) = none ∧
      (some p).bind (replyOf c) = none := fun hhandling => by
    simp [deliveryOf, replyOf, hhandling]
  rw [onDecode] at h
  split at h
  · rename_i hframe
    split at h
    · rename_i s hs
      have hhandling : handling c p =
          (MahjongAI.onMessagePacket (c.nsp s) p).map (s, ·) := by
        rw [handling, if_pos hframe, hs, Option.bind_some]
      rw [onMessagePacket] at h
      cases hpacket : MahjongAI.onMessagePacket (c.nsp s) p with
      | none =>
          rw [hpacket] at h
          exact absurd h (by simp)
      | some handled =>
          rw [hpacket] at h hhandling
          rw [Option.map_some] at hhandling
          cases handled with
          | connected =>
              obtain ⟨u, hu, heq⟩ := Option.map_eq_some_iff.mp h
              obtain ⟨rfl, rfl⟩ := Prod.mk.inj heq
              exact .confirmed (by simp [deliveryOf, hhandling]) (by simp [replyOf, hhandling]) hu
          | closed => exact absurd h (by simp)
          | event packId name args =>
              obtain ⟨rfl, rfl⟩ := Prod.mk.inj (Option.some.inj h)
              exact .event (by simp [deliveryOf, hhandling]) (by simp [replyOf, hhandling])
                (BitVec.toInt_lt (x := Packet.getPackId packId))
          | ack packId args =>
              obtain ⟨rfl, -⟩ := Acks.onMessagePacket_eq_ack hpacket
              simp only at h
              split at h
              · rename_i hid
                obtain ⟨rfl, rfl⟩ := Prod.mk.inj (Option.some.inj h)
                exact .ack (q := ⟨p, hid⟩) rfl (by simp [deliveryOf, hhandling])
                  (by simp [replyOf, hhandling]) hpacket rfl
              · exact absurd h (by simp)
          | _ =>
              obtain ⟨rfl, rfl⟩ := Prod.mk.inj (Option.some.inj h)
              exact .silent (by simp [deliveryOf, hhandling]) (by simp [replyOf, hhandling])
    · rename_i hs
      obtain ⟨rfl, rfl⟩ := Prod.mk.inj (Option.some.inj h)
      obtain ⟨hevent, hack⟩ := hnone (by rw [handling, if_pos hframe, hs, Option.bind_none])
      exact .silent hevent hack
  · rename_i hframe
    obtain ⟨hevent, hack⟩ := hnone (by rw [handling, if_neg hframe])
    split at h
    · split at h
      · obtain ⟨rfl, rfl⟩ := Prod.mk.inj (Option.some.inj h)
        exact .silent hevent hack
      · exact absurd h (by simp)
    · split at h
      · exact absurd h (by simp)
      · obtain ⟨rfl, rfl⟩ := Prod.mk.inj (Option.some.inj h)
        exact .silent hevent hack

/-- **A payload that is taken.** -/
theorem takes_of_take [LexicalCast] {payload : List Char}
    (h : take c w payload = some (w', call)) :
    ∃ m out, w.manager.putPayload payload = some (m, out) ∧
      Takes c (w.taking payload m) out w' call := by
  obtain ⟨⟨m, out⟩, hput, h⟩ := Option.bind_eq_some_iff.mp h
  refine ⟨m, out, hput, ?_⟩
  cases out with
  | none =>
      obtain ⟨rfl, rfl⟩ := Prod.mk.inj (Option.some.inj h)
      exact .silent rfl rfl
  | some p => exact takes_onDecode h

end Take

/-! ### What is said and heard -/

/-- Messages that come back as they are: plain ones with attachments that an `int` counts. -/
def Sound (ms : List Message) : Prop :=
  Message.PlainElements ms ∧ (Message.attachmentsElements ms).length < 2 ^ 31

theorem sound_nil : Sound [] :=
  ⟨trivial, by decide⟩

/-- A saying of plain messages. The emits with callbacks are numbered, and `n` have been made. -/
def SoundSaying (n : ℕ) : Saying S C → Prop
  | .emit e packId => Sound e.msglist ∧ (packId = -1 ∨ ∃ i < n, packId = Acks.idAt i)
  | .ack _ msgId ackMessage => Sound ackMessage ∧ 0 ≤ msgId ∧ msgId < 2 ^ 31

theorem SoundSaying.mono {n n' : ℕ} (hn : n ≤ n') {x : Saying S C} (h : SoundSaying n x) :
    SoundSaying n' x := by
  cases x with
  | emit e packId =>
      exact ⟨h.1, h.2.imp_right fun ⟨i, hi, hid⟩ => ⟨i, hi.trans_le hn, hid⟩⟩
  | ack s msgId ackMessage => exact h

/-- The number of callbacks that were passed. -/
def count (w : Endpoint S C L) : ℕ :=
  (w.history.filterMap Acks.Entry.filed).length

/-- The emit of an entry, with its packet. -/
def sent : Acks.Entry S C → Option (S × Option C × Packet)
  | .sent s ack p => some (s, ack, p)
  | .received _ _ _ => none

/-- The entry of an emit. -/
def entryOf (c : Setup S L) : Saying S C → Option (S × Option C × Packet)
  | .emit e packId => some (e.socket, e.ack, (Saying.emit e packId).packet c.nsp)
  | .ack _ _ _ => none

/-- **The ears are true**: what was heard and answered is what came in, the history holds the
emits that were said, and the callbacks wait for their acks. -/
structure Attentive [LexicalCast] (c : Setup S L) (w : Endpoint S C L) : Prop where
  told : ∃ ps, PacketManager.fresh.run w.received = some (w.manager, ps) ∧
    w.heard = ps.filterMap (deliveryOf c) ∧ w.history.filterMap arrived = ps.filterMap (replyOf c)
  reachable : Reachable w.manager
  said : ∀ x ∈ w.said, SoundSaying w.count x
  sents : w.history.filterMap sent = w.said.filterMap (entryOf c)
  acks : Acks.Inv c.nsp w.acks w.history
  waiting : w.count < 2 ^ 31 → Acks.Waiting w.acks w.history
  replied : ∀ s q l args, .received s q (some (l, args)) ∈ w.history →
    MahjongAI.onMessagePacket (c.nsp s) q.1 = some (.ack q.1.packId args)

theorem run_concat [LexicalCast] {m m' m'' : PacketManager} {payloads : List (List Char)}
    {payload : List Char} {ps : List Packet} {out : Option Packet}
    (hrun : m.run payloads = some (m', ps)) (hput : m'.putPayload payload = some (m'', out)) :
    m.run (payloads ++ [payload]) = some (m'', ps ++ out.toList) := by
  induction payloads generalizing m ps with
  | nil =>
      obtain ⟨rfl, rfl⟩ := Prod.mk.inj (Option.some.inj hrun)
      rw [List.nil_append, PacketManager.run, hput]
      simp [PacketManager.run]
  | cons x payloads ih =>
      rw [PacketManager.run] at hrun
      obtain ⟨⟨u, p⟩, hu, hrun⟩ := Option.bind_eq_some_iff.mp hrun
      obtain ⟨⟨u', qs⟩, hrest, heq⟩ := Option.bind_eq_some_iff.mp hrun
      obtain ⟨rfl, rfl⟩ := Prod.mk.inj (Option.some.inj heq)
      rw [List.cons_append, PacketManager.run, hu]
      simp [ih hrest]

/-- An emit is said, as the packet `p`. -/
def saying (w : Endpoint S C L) (e : Emission S C) (acks : Acks.Sockets S C) (p : Packet) :
    Endpoint S C L :=
  { w with
    acks := acks
    said := w.said ++ [.emit e p.packId]
    history := w.history ++ [.sent e.socket e.ack p] }

/-- The ack of an event is said. -/
def replying (w : Endpoint S C L) (s : S) (msgId : ℤ) (ackMessage : List Message) :
    Endpoint S C L :=
  { w with said := w.said ++ [.ack s msgId ackMessage] }

/-- What an emit comes down to. -/
theorem emit_eq_act [DecidableEq S] {c : Setup S L} {w : Endpoint S C L} {t : Thread}
    {e : Emission S C} {acks : Acks.Sockets S C} {p : Packet}
    (hout : Acks.emit (c.nsp e.socket) w.acks e.socket e.name e.msglist e.ack = (acks, p)) :
    emit c t w e = act c t e.socket (w.saying e acks p) ((w.socket e.socket).sendPacket p) := by
  rw [emit, hout]
  rfl

/-- The id of an emit. -/
theorem emit_packId [DecidableEq S] (nsp : List Char) {σ : Acks.Sockets S C} (e : Emission S C)
    {h : List (Acks.Entry S C)} {nsp' : S → List Char} (hinv : Acks.Inv nsp' σ h) :
    (Acks.emit nsp σ e.socket e.name e.msglist e.ack).2.packId = -1 ∨
      e.ack.isSome = true ∧ (Acks.emit nsp σ e.socket e.name e.msglist e.ack).2.packId =
        Acks.idAt (h.filterMap Acks.Entry.filed).length := by
  obtain ⟨s, name, msglist, ack⟩ := e
  cases ack with
  | none => exact Or.inl rfl
  | some l =>
      refine Or.inr ⟨rfl, ?_⟩
      rw [Acks.idAt, ← hinv.counter]
      rfl

/-- The packet of an emit. -/
theorem emit_packet [DecidableEq S] (nsp : S → List Char) (σ : Acks.Sockets S C)
    (e : Emission S C) :
    (Acks.emit (nsp e.socket) σ e.socket e.name e.msglist e.ack).2 =
      (Saying.emit e (Acks.emit (nsp e.socket) σ e.socket e.name e.msglist e.ack).2.packId).packet
        nsp := by
  obtain ⟨s, name, msglist, ack⟩ := e
  cases ack <;> rfl

/-- One packet more, or none. -/
theorem filterMap_append_toList {β : Type*} (f : Packet → Option β) (ps : List Packet)
    (out : Option Packet) :
    (ps ++ out.toList).filterMap f = ps.filterMap f ++ (out.bind f).toList := by
  rw [List.filterMap_append]
  cases out with
  | none => rfl
  | some p => cases hp : f p <;> simp [hp]

/-- A payload passes no callbacks. -/
theorem count_take [LexicalCast] [DecidableEq S] {c : Setup S L} {w w' : Endpoint S C L}
    {payload : List Char} {call : Call S C L} (htake : take c w payload = some (w', call)) :
    w'.count = w.count := by
  obtain ⟨m, out, -, htakes⟩ := takes_of_take htake
  cases htakes with
  | confirmed hevent hack hact =>
      rw [act_eq_some hact]
      rfl
  | ack => exact congrArg List.length (filterMap_concat_none _ rfl)
  | _ => rfl

section Attentive

variable [LexicalCast] {c : Setup S L} {w v w' : Endpoint S C L}

theorem attentive_init : (init c : Endpoint S C L).Attentive c where
  told := ⟨[], rfl, rfl, rfl⟩
  reachable := Reachable.fresh
  said := fun _ hx => absurd hx List.not_mem_nil
  sents := rfl
  acks := Acks.inv_init c.nsp
  waiting := fun _ => Acks.waiting_init
  replied := fun _ _ _ _ hq => absurd hq List.not_mem_nil

/-- The rest of the state does not matter. -/
theorem Attentive.congr (h : v.Attentive c) (hacks : w.acks = v.acks)
    (hmanager : w.manager = v.manager) (hreceived : w.received = v.received)
    (hsaid : w.said = v.said) (hheard : w.heard = v.heard) (hhistory : w.history = v.history) :
    w.Attentive c := by
  have hcount : w.count = v.count := by rw [count, count, hhistory]
  refine ⟨?_, ?_, ?_, ?_, ?_, ?_, ?_⟩
  · rw [hreceived, hmanager, hheard, hhistory]
    exact h.told
  · rw [hmanager]
    exact h.reachable
  · rw [hsaid, hcount]
    exact h.said
  · rw [hhistory, hsaid]
    exact h.sents
  · rw [hacks, hhistory]
    exact h.acks
  · rw [hcount, hacks, hhistory]
    exact h.waiting
  · rw [hhistory]
    exact h.replied

/-- **An ack of an event** is said. -/
theorem Attentive.replying (h : w.Attentive c) {s : S} {msgId : ℤ} {ackMessage : List Message}
    (hsound : Sound ackMessage) (hid : 0 ≤ msgId ∧ msgId < 2 ^ 31) :
    (w.replying s msgId ackMessage).Attentive c := by
  refine ⟨h.told, h.reachable, fun x hx => ?_, ?_, h.acks, h.waiting, h.replied⟩
  · rcases List.mem_append.mp hx with hx | hx
    · exact h.said x hx
    · obtain rfl := List.mem_singleton.mp hx
      exact ⟨hsound, hid⟩
  · exact h.sents.trans (filterMap_concat_none _ rfl).symm

variable [DecidableEq S]

theorem Attentive.act (h : w.Attentive c) {t : Thread} {s : S} {r : Socket × List Act}
    (hact : act c t s w r = some w') : w'.Attentive c := by
  rw [act_eq_some hact]
  exact h.congr rfl rfl rfl rfl rfl rfl

/-- **An emit** is said, and its callback waits. -/
theorem Attentive.saying (h : w.Attentive c) {e : Emission S C} (hsound : Sound e.msglist)
    {acks : Acks.Sockets S C} {p : Packet}
    (hout : Acks.emit (c.nsp e.socket) w.acks e.socket e.name e.msglist e.ack = (acks, p)) :
    (w.saying e acks p).Attentive c := by
  have hstep : Acks.step c.nsp w.acks (.emit e.socket e.name e.msglist e.ack) =
      some (acks, .sent e.socket e.ack p) := by
    rw [Acks.step, hout]
  have hpacket := emit_packet c.nsp w.acks e
  have hid := emit_packId (c.nsp e.socket) e h.acks
  rw [hout] at hpacket hid
  have hle : w.count ≤ (w.saying e acks p).count := by
    rw [count, count, Endpoint.saying, List.filterMap_append, List.length_append]
    exact Nat.le_add_right _ _
  refine ⟨?_, h.reachable, fun x hx => ?_, ?_, h.acks.step hstep, fun hlt => ?_,
    fun s q l args hq => ?_⟩
  · obtain ⟨ps, hrun, hheard, harrived⟩ := h.told
    exact ⟨ps, hrun, hheard, (filterMap_concat_none _ rfl).trans harrived⟩
  · rcases List.mem_append.mp hx with hx | hx
    · exact (h.said x hx).mono hle
    · obtain rfl := List.mem_singleton.mp hx
      refine ⟨hsound, hid.imp_right fun hfresh => ?_⟩
      obtain ⟨hack, heq⟩ := hfresh
      refine ⟨_, ?_, heq⟩
      obtain ⟨l, hl⟩ := Option.isSome_iff_exists.mp hack
      have hfiled := filterMap_concat_some w.history (f := Acks.Entry.filed)
        (x := .sent e.socket e.ack p) (t := l) hl
      have hlength := congrArg List.length hfiled
      rw [List.length_append] at hlength
      exact (Nat.lt_succ_self _).trans_eq hlength.symm
  · have hnew : entryOf c (.emit e p.packId) = some (e.socket, e.ack, p) := by
      rw [entryOf, ← hpacket]
    have hentry : sent (Acks.Entry.sent e.socket e.ack p) = some (e.socket, e.ack, p) := rfl
    exact (filterMap_concat_some _ hentry).trans
      ((congrArg (· ++ [_]) h.sents).trans (filterMap_concat_some _ hnew).symm)
  · exact (h.waiting (hle.trans_lt hlt)).step h.acks (hle.trans_lt hlt) hstep
  · rcases List.mem_append.mp hq with hq | hq
    · exact h.replied s q l args hq
    · exact absurd (List.mem_singleton.mp hq) (by simp)

theorem Attentive.emit (h : w.Attentive c) {t : Thread} {e : Emission S C}
    (hsound : Sound e.msglist) (hemit : Endpoint.emit c t w e = some w') : w'.Attentive c := by
  rw [emit_eq_act rfl] at hemit
  exact (h.saying hsound rfl).act hemit

theorem Attentive.ack (h : w.Attentive c) {s : S} {msgId : ℤ} {ackMessage : List Message}
    (hsound : Sound ackMessage) (hid : 0 ≤ msgId ∧ msgId < 2 ^ 31)
    (hack : Endpoint.ack c w s msgId ackMessage = some w') : w'.Attentive c :=
  (h.replying hsound hid).act hack

/-- **A payload** is heard, or calls the callback of its ack. -/
theorem Attentive.take (h : w.Attentive c) {payload : List Char} {call : Call S C L}
    (htake : Endpoint.take c w payload = some (w', call)) : w'.Attentive c := by
  obtain ⟨m, out, hput, htakes⟩ := takes_of_take htake
  have hreachable := Reachable.putPayload h.reachable hput
  obtain ⟨ps, hrun, hheard, harrived⟩ := h.told
  have hnext := run_concat hrun hput
  -- nothing but the payload is new
  have hsilent : out.bind (deliveryOf c) = none → out.bind (replyOf c) = none →
      (w.taking payload m).Attentive c := by
    intro hevent hack
    refine ⟨⟨_, hnext, ?_, ?_⟩, hreachable, h.said, h.sents, h.acks, h.waiting, h.replied⟩
    · rw [filterMap_append_toList, hevent, Option.toList_none, List.append_nil]
      exact hheard
    · rw [filterMap_append_toList, hack, Option.toList_none, List.append_nil]
      exact harrived
  cases htakes with
  | silent hevent hack => exact hsilent hevent hack
  | confirmed hevent hack hact => exact (hsilent hevent hack).act hact
  | @event d hevent hack hid =>
      refine ⟨⟨_, hnext, ?_, ?_⟩, hreachable, h.said, h.sents, h.acks, h.waiting, h.replied⟩
      · rw [filterMap_append_toList, hevent]
        exact congrArg (· ++ [d]) hheard
      · rw [filterMap_append_toList, hack, Option.toList_none, List.append_nil]
        exact harrived
  | @ack q s args acks l hp hevent hack hargs heq =>
      subst hp
      have hstep : Acks.step c.nsp w.acks (.receive s q) =
          some (acks, .received s q (l.map (·, args))) := by
        have hacks : Acks.onSocketioAck w.acks s (Packet.getPackId q.1.packId).toInt =
            (acks, l) := heq
        simp only [Acks.step, hargs, hacks]
      have hentry : arrived (Acks.Entry.received s q (l.map (·, args))) = some (s, q.1) := rfl
      have hcount : (w.history ++ [Acks.Entry.received s q (l.map (·, args))]).filterMap
          Acks.Entry.filed = w.history.filterMap Acks.Entry.filed := filterMap_concat_none _ rfl
      refine ⟨⟨_, hnext, ?_, ?_⟩, hreachable, fun x hx => ?_, ?_, h.acks.step hstep, fun hlt => ?_,
        fun s' q' l' args' hq => ?_⟩
      · rw [filterMap_append_toList, Option.bind_some, hevent, Option.toList_none, List.append_nil]
        exact hheard
      · rw [filterMap_append_toList, Option.bind_some, hack]
        exact (filterMap_concat_some _ hentry).trans (congrArg (· ++ [(s, q.1)]) harrived)
      · exact (h.said x hx).mono (congrArg List.length hcount).ge
      · exact (filterMap_concat_none _ rfl).trans h.sents
      · have hlt' : w.count < 2 ^ 31 := (congrArg List.length hcount).ge.trans_lt hlt
        exact (h.waiting hlt').step h.acks hlt' hstep
      · rcases List.mem_append.mp hq with hq | hq
        · exact h.replied s' q' l' args' hq
        · obtain ⟨rfl, rfl, hcall⟩ := Acks.Entry.received.inj (List.mem_singleton.mp hq)
          obtain ⟨l'', -, hsame⟩ := Option.map_eq_some_iff.mp hcall.symm
          obtain ⟨-, rfl⟩ := Prod.mk.inj hsame
          exact hargs

end Attentive

/-! ### The invariant -/

section Steps

variable [DecidableEq S] {c : Setup S L} {w v w' : Endpoint S C L}

theorem balanced_init : (init c : Endpoint S C L).Balanced c where
  nsp := fun _ => rfl
  client := fun _ => rfl
  queue := fun _ _ => rfl
  handed := fun _ => rfl
  sent := fun t => by cases t <;> rfl
  pings := fun _ hx => absurd hx List.not_mem_nil

theorem Balanced.aside (h : w.Balanced c) (haside : Aside w v) (hsaid : v.said = w.said) :
    v.Balanced c := by
  obtain ⟨hsocket, hposted, hwire, hhanded⟩ := haside
  refine ⟨?_, ?_, ?_, fun s => ?_, fun t => ?_, ?_⟩
  · rw [hsocket]
    exact h.nsp
  · rw [hsocket]
    exact h.client
  · rw [hsocket]
    exact h.queue
  · rw [packetsOf, hhanded, hsocket, hsaid]
    exact h.handed s
  · have hsent := h.sent t
    cases t <;> simpa [sentOn, postedOn, packetsOn, hposted, hwire, hhanded] using hsent
  · rw [sentOn, hwire]
    exact h.pings

/-- What a socket does with an emit. -/
theorem Balanced.hands_emit (h : w.Balanced c) {e : Emission S C} {acks : Acks.Sockets S C}
    {p : Packet}
    (hout : Acks.emit (c.nsp e.socket) w.acks e.socket e.name e.msglist e.ack = (acks, p)) :
    Hands (w.socket e.socket) ([Saying.emit e p.packId].map (Saying.packet c.nsp))
      ((w.socket e.socket).sendPacket p) := by
  have hpacket := emit_packet c.nsp w.acks e
  rw [hout] at hpacket
  rw [List.map_singleton, ← hpacket]
  exact hands_sendPacket (h.client e.socket) p

theorem Balanced.emit (h : w.Balanced c) {t : Thread} {e : Emission S C}
    (hemit : Endpoint.emit c t w e = some w') : w'.Balanced c := by
  rw [emit_eq_act rfl] at hemit
  exact h.act (v := w.saying e _ _) ⟨rfl, rfl, rfl, rfl⟩ rfl (by simp [Saying.socket])
    (h.hands_emit rfl) hemit

/-- What a socket does with an ack. -/
theorem Balanced.hands_ack (h : w.Balanced c) (s : S) (msgId : ℤ) (ackMessage : List Message) :
    Hands (w.socket s) ([(.ack s msgId ackMessage : Saying S C)].map (Saying.packet c.nsp))
      ((w.socket s).ack msgId ackMessage) := by
  rw [List.map_singleton, Socket.ack, h.nsp s]
  exact hands_sendPacket (h.client s) _

theorem Balanced.ack (h : w.Balanced c) {s : S} {msgId : ℤ} {ackMessage : List Message}
    (hack : Endpoint.ack c w s msgId ackMessage = some w') : w'.Balanced c :=
  h.act (v := w.replying s msgId ackMessage) ⟨rfl, rfl, rfl, rfl⟩ rfl (by simp [Saying.socket])
    (h.hands_ack s msgId ackMessage) hack

theorem Balanced.run (h : w.Balanced c) (hrun : w.run = some w') : w'.Balanced c := by
  rw [Endpoint.run] at hrun
  split at hrun
  · exact absurd hrun (by simp)
  · rename_i payload rest hposted
    obtain rfl := Option.some.inj hrun
    refine ⟨h.nsp, h.client, h.queue, h.handed, fun t => ?_, ?_⟩
    · have hsent := h.sent t
      cases t with
      | user => simpa [sentOn, postedOn, packetsOn, part, hposted] using hsent
      | network => simpa [sentOn, postedOn, packetsOn, part] using hsent
    · simpa [sentOn, part] using h.pings

theorem Balanced.ping (h : w.Balanced c) (hping : w.ping c = some w') : w'.Balanced c := by
  obtain ⟨⟨p, more⟩, hencode, rfl⟩ := Option.map_eq_some_iff.mp hping
  refine ⟨h.nsp, h.client, h.queue, h.handed, fun t => ?_, fun x hx => ?_⟩
  · have hsent := h.sent t
    cases t <;> simpa [sentOn, postedOn, packetsOn, part] using hsent
  · have hmem : x ∈ part none (w.wire ++ more.map (none, ·)) := hx
    rw [part_append, List.mem_append] at hmem
    rcases hmem with hold | hnew
    · exact h.pings x hold
    · rw [payloads, hencode]
      simpa [part] using hnew

theorem Balanced.take [LexicalCast] (h : w.Balanced c) {payload : List Char} {call : Call S C L}
    (htake : Endpoint.take c w payload = some (w', call)) : w'.Balanced c := by
  obtain ⟨m, out, -, htakes⟩ := takes_of_take htake
  have htaking : (w.taking payload m).Balanced c := h.aside ⟨rfl, rfl, rfl, rfl⟩ rfl
  cases htakes with
  | silent => exact htaking
  | @confirmed s _ hevent hack hact =>
      exact htaking.act ⟨rfl, rfl, rfl, rfl⟩ (List.append_nil _).symm (by simp)
        (hands_onConnected (htaking.client s) (htaking.queue s)) hact
  | event => exact htaking.aside ⟨rfl, rfl, rfl, rfl⟩ rfl
  | ack => exact htaking.aside ⟨rfl, rfl, rfl, rfl⟩ rfl

/-- **The invariant.** -/
structure Inv [LexicalCast] (c : Setup S L) (w : Endpoint S C L) : Prop where
  balanced : w.Balanced c
  attentive : w.Attentive c

variable [LexicalCast]

theorem Inv.emit (h : w.Inv c) {t : Thread} {e : Emission S C} (hsound : Sound e.msglist)
    (hemit : Endpoint.emit c t w e = some w') : w'.Inv c :=
  ⟨h.balanced.emit hemit, h.attentive.emit hsound hemit⟩

theorem Inv.emits (h : w.Inv c) {t : Thread} {es : List (Emission S C)}
    (hsound : ∀ e ∈ es, Sound e.msglist)
    (hemits : es.foldlM (Endpoint.emit c t) w = some w') : w'.Inv c := by
  induction es generalizing w with
  | nil => exact Option.some.inj hemits ▸ h
  | cons e es ih =>
      rw [List.foldlM_cons] at hemits
      obtain ⟨v, hv, hrest⟩ := Option.bind_eq_some_iff.mp hemits
      obtain ⟨he, hes⟩ := List.forall_mem_cons.mp hsound
      exact ih (h.emit he hv) hes hrest

/-- The response of a user who is called. -/
def Response.Sound (r : Response S C) : Prop :=
  (∀ e ∈ r.emits, Endpoint.Sound e.msglist) ∧ Endpoint.Sound r.answer

/-- The messages are plain. -/
def Event.Allowed : Event S C → Prop
  | .emit e => Endpoint.Sound e.msglist
  | .receive _ r => Response.Sound r
  | _ => True

theorem Inv.respond (h : w.Inv c) {call : Call S C L} {r : Response S C}
    (hsound : Response.Sound r) (hid : ∀ d, call = .event d → d.msgId < 2 ^ 31)
    (hrespond : Endpoint.respond c w call r = some w') : w'.Inv c := by
  obtain ⟨v, hv, hlast⟩ := Option.bind_eq_some_iff.mp hrespond
  have hr : Response.Sound (if call.isUser then r else ⟨[], []⟩) := by
    split
    · exact hsound
    · exact ⟨by simp, sound_nil⟩
  have hinv := h.emits hr.1 hv
  cases call with
  | event d =>
      simp only at hlast
      split at hlast
      · rename_i hmsgId
        exact ⟨hinv.balanced.ack hlast, hinv.attentive.ack hr.2 ⟨hmsgId, hid d rfl⟩ hlast⟩
      · exact Option.some.inj hlast ▸ hinv
  | _ => exact Option.some.inj hlast ▸ hinv

/-- The id of an event that is handed to a listener. -/
theorem msgId_of_take {payload : List Char} {call : Call S C L}
    (htake : Endpoint.take c w payload = some (w', call)) :
    ∀ d, call = .event d → d.msgId < 2 ^ 31 := by
  obtain ⟨m, out, -, htakes⟩ := takes_of_take htake
  cases htakes with
  | event hevent hack hid => exact fun d hd => Call.event.inj hd ▸ hid
  | @ack q s args acks l =>
      cases l <;> exact fun d hd => absurd hd (by simp)
  | _ => exact fun d hd => absurd hd (by simp)

/-- **One event** keeps the invariant. -/
theorem Inv.step (h : w.Inv c) {e : Event S C} (hallowed : e.Allowed)
    (hstep : Endpoint.step c w e = some w') : w'.Inv c := by
  cases e with
  | emit e => exact h.emit hallowed hstep
  | run =>
      refine ⟨h.balanced.run hstep, ?_⟩
      rw [Endpoint.step, Endpoint.run] at hstep
      split at hstep
      · exact absurd hstep (by simp)
      · obtain rfl := Option.some.inj hstep
        exact h.attentive.congr rfl rfl rfl rfl rfl rfl
  | ping =>
      refine ⟨h.balanced.ping hstep, ?_⟩
      have hping : w.ping c = some w' := hstep
      obtain ⟨⟨p, payloads⟩, -, rfl⟩ := Option.map_eq_some_iff.mp hping
      exact h.attentive.congr rfl rfl rfl rfl rfl rfl
  | receive payload r =>
      obtain ⟨⟨v, call⟩, htake, hrespond⟩ := Option.bind_eq_some_iff.mp hstep
      have hv : v.Inv c := ⟨h.balanced.take htake, h.attentive.take htake⟩
      exact hv.respond hallowed (msgId_of_take htake) hrespond

/-- A step by the rules. -/
def Steps (c : Setup S L) (w : Endpoint S C L) (e : Event S C) (w' : Endpoint S C L) : Prop :=
  Endpoint.step c w e = some w' ∧ e.Allowed

/-- **The invariant of a client**, over every run. -/
theorem inv_of_run {es : List (Event S C)} (h : Run (Steps c) (init c) es w) : w.Inv c :=
  h.invariant (fun hs hstep => hs.step hstep.2 hstep.1) ⟨balanced_init, attentive_init⟩

end Steps

end Endpoint

end MahjongAI
