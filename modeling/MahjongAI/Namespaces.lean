import MahjongAI.Runs
import MahjongAI.Sockets

/-!
# The Namespaces of a Connection

A client holds one socket for each namespace in `m_sockets`. A closed socket leaves the
map, and asking for its namespace again makes a new one. The calls of the sockets, the
received packets and the handlers of the timers come in between each other in any order:
`Namespaces.step` takes one event at a time, and the connection opens, fails and closes as
it pleases.

`on_encode` gives `send_impl` to `dispatch`. On the network thread it runs at once. A call on
another thread posts it, and `send_impl` looks at `m_con_state` when it runs. The handlers that
were posted run in order, and all of them before a connection that opens later: they were
posted while an older connection was open or closing, and the new one is made by handlers that
come after its end. The payloads of one packet are posted together and count as one here.

## Main results

* `Namespaces.Inv`: the sockets in the map are those that are not closed, and what was seen
  of each is in order.
* `Namespaces.Inv.call`, `Namespaces.Inv.invoke`, `Namespaces.Inv.getSocket`: a call of a socket,
  a call of all of them and the making of one keep it.
-/

open Runs

namespace MahjongAI

/-! ### The client -/

/-- What can be seen of a client: a connection opens or goes down, a packet is handed to a
socket, a socket acts, `send_impl` sends a packet or drops it. -/
inductive Mark
  | opened
  | down
  | received (id : ℕ) (p : Packet)
  | act (t : Thread) (id : ℕ) (a : Act)
  | sent (t : Thread) (id : ℕ) (p : Packet)
  | lost (t : Thread) (id : ℕ) (p : Packet)

/-- The sockets of a client, numbered as they are made, and the map that holds the open
ones in the order of their namespaces. -/
structure Namespaces where
  /-- `m_con_state`. -/
  conState : ConState
  /-- A connection is open. -/
  online : Bool
  /-- `m_sockets`. -/
  sockets : List (List Char × ℕ)
  socket : ℕ → Socket
  made : ℕ
  /-- The packets whose `send_impl` was posted and has not run. -/
  posted : List (ℕ × Packet)
  /-- What has been seen. -/
  log : List Mark

/-- Calls on a thread, handlers of the connection, received packets, handlers of the timers,
and `run` for the next `send_impl` that was posted. `connect` stands for `connect` and
`timeout_reconnect`. -/
inductive NamespaceEvent
  | socket (t : Thread) (nsp : List Char)
  | emit (t : Thread) (id : ℕ) (name : List Char) (msglist : List Message) (packId : ℤ)
  | ack (id : ℕ) (msgId : ℤ) (ackMessage : List Message)
  | closeSocket (t : Thread) (id : ℕ)
  | close (t : Thread)
  | connect
  | onOpen
  | onFail
  | onClose
  | receive (p : Packet)
  | expire (id : ℕ)
  | abort (id : ℕ) (w : Wait)
  | run

/-- `send_impl`, for a packet of the socket `id`. -/
def sendImpl (con : ConState) (t : Thread) (id : ℕ) (p : Packet) : Mark :=
  if con = .opened then .sent t id p else .lost t id p

/-- What is seen of the acts of a call: on the network thread `dispatch` runs `send_impl`. -/
def marks (con : ConState) (t : Thread) (id : ℕ) (acts : List Act) : List Mark :=
  acts.flatMap fun a =>
    .act t id a :: if t = .network then a.packet.toList.map (sendImpl con t id) else []

/-- What a call posts. -/
def posts (t : Thread) (id : ℕ) (acts : List Act) : List (ℕ × Packet) :=
  if t = .user then (acts.filterMap Act.packet).map fun p => (id, p) else []

namespace Namespaces

/-- A client without sockets. -/
def init : Namespaces where
  conState := .closed
  online := false
  sockets := []
  socket := fun _ => { Socket.make [] with client := false }
  made := 0
  posted := []
  log := []

/-- A socket is called. A socket that closes is removed from the map (`remove_socket`). -/
def call (s : Namespaces) (t : Thread) (op : Socket → Socket × List Act) (id : ℕ) :
    Namespaces :=
  let (k, acts) := op (s.socket id)
  { s with
    socket := Function.update s.socket id k
    sockets :=
      if acts.any Act.isClosed then s.sockets.eraseP fun e => e.1 = k.nsp else s.sockets
    posted := s.posted ++ posts t id acts
    log := s.log ++ marks s.conState t id acts }

/-- `sockets_invoke_void`. -/
def invoke (s : Namespaces) (t : Thread) (op : Socket → Socket × List Act) : Namespaces :=
  (s.sockets.map Prod.snd).foldl (fun s id => s.call t op id) s

/-- The name under which `client_impl::socket` looks for a namespace. -/
def fullName (nsp : List Char) : List Char :=
  match nsp with
  | [] => ['/']
  | '/' :: _ => nsp
  | _ => '/' :: nsp

/-- `m_sockets.insert`. -/
def insertSocket (nsp : List Char) (id : ℕ) :
    List (List Char × ℕ) → List (List Char × ℕ)
  | [] => [(nsp, id)]
  | e :: es => if nsp < e.1 then (nsp, id) :: e :: es else e :: insertSocket nsp id es

/-- `client_impl::socket`. -/
def getSocket (s : Namespaces) (t : Thread) (nsp : List Char) : Namespaces :=
  match s.sockets.lookup (fullName nsp) with
  | some _ => s
  | none =>
      let s' : Namespaces :=
        { s with
          socket := Function.update s.socket s.made (Socket.make (fullName nsp))
          made := s.made + 1
          sockets := insertSocket (fullName nsp) s.made s.sockets }
      if s.conState = .opened then s'.call t Socket.sendConnect s.made else s'

/-- `client_impl::on_open`. -/
def onOpen (s : Namespaces) : Namespaces :=
  let s : Namespaces :=
    { s with conState := .opened, online := true, log := s.log ++ [.opened] }
  (s.invoke .network Socket.sendConnect).getSocket .network []

/-- `client_impl::on_fail`, and `client_impl::on_close` as far as the sockets go. -/
def onClose (s : Namespaces) : Namespaces :=
  let s : Namespaces := { s with conState := .closed, log := s.log ++ [.down] }
  { s.invoke .network Socket.onDisconnect with online := false }

/-- `client_impl::close`. -/
def close (s : Namespaces) (t : Thread) : Namespaces :=
  { s with conState := .closing }.invoke t Socket.close

/-- `client_impl::on_decode` of a message packet. -/
def receive (s : Namespaces) (p : Packet) : Namespaces :=
  match s.sockets.lookup p.nsp with
  | some id =>
      let s : Namespaces := { s with log := s.log ++ [.received id p] }
      s.call .network (Socket.onMessagePacket p) id
  | none => s

/-- The next `send_impl` that was posted. -/
def run (s : Namespaces) : Option Namespaces :=
  match s.posted with
  | [] => none
  | (id, p) :: rest =>
      some { s with posted := rest, log := s.log ++ [sendImpl s.conState .user id p] }

/-- One event. The user calls sockets that were made; there is one connection at a time, which
opens when nothing is posted, and packets come in while it is open; a timer's handler is called
when its wait is over or was given up. -/
def step (s : Namespaces) : NamespaceEvent → Option Namespaces
  | .socket t nsp => some (s.getSocket t nsp)
  | .emit t id name msglist packId =>
      if id < s.made then some (s.call t (Socket.emit name msglist packId) id) else none
  | .ack id msgId ackMessage =>
      if id < s.made then some (s.call .network (Socket.ack msgId ackMessage) id) else none
  | .closeSocket t id => if id < s.made then some (s.call t Socket.close id) else none
  | .close t => some (s.close t)
  | .connect => if s.online then none else some { s with conState := .opening }
  | .onOpen => if s.online ∨ s.posted ≠ [] then none else some s.onOpen
  | .onFail => if s.online then none else some s.onClose
  | .onClose => if s.online then some s.onClose else none
  | .receive p => if s.online then some (s.receive p) else none
  | .expire id =>
      if id < s.made ∧ (s.socket id).connectionTimer.isSome then
        some (s.call .network Socket.expire id)
      else none
  | .abort id w =>
      if id < s.made ∧ 0 < (s.socket id).aborted w then
        some (s.call .network (Socket.abort w) id)
      else none
  | .run => s.run

end Namespaces

/-! ### What is seen of a call -/

section Marks

variable {con : ConState} {t : Thread} {id : ℕ} {acts : List Act} {m : Mark}

theorem sendImpl_eq (con : ConState) (t : Thread) (id : ℕ) (p : Packet) :
    con = .opened ∧ sendImpl con t id p = .sent t id p ∨
      con ≠ .opened ∧ sendImpl con t id p = .lost t id p := by
  rw [sendImpl]
  split
  · rename_i hcon
    exact Or.inl ⟨hcon, rfl⟩
  · rename_i hcon
    exact Or.inr ⟨hcon, rfl⟩

/-- What a call leaves in the log: its acts, and the sends of the network thread. -/
theorem mem_marks : m ∈ marks con t id acts ↔
    (∃ a ∈ acts, m = .act t id a) ∨
      t = .network ∧ ∃ p, .send p ∈ acts ∧ m = sendImpl con t id p := by
  simp only [marks, List.mem_flatMap, List.mem_cons]
  constructor
  · rintro ⟨a, ha, hm | hm⟩
    · exact Or.inl ⟨a, ha, hm⟩
    · by_cases ht : t = .network
      · rw [if_pos ht] at hm
        obtain ⟨p, hp, rfl⟩ := List.mem_map.mp hm
        cases a with
        | send q =>
            obtain rfl : p = q := by simpa [Act.packet] using hp
            exact Or.inr ⟨ht, p, ha, rfl⟩
        | _ => exact absurd hp (by simp [Act.packet])
      · rw [if_neg ht] at hm
        exact absurd hm (by simp)
  · rintro (⟨a, ha, rfl⟩ | ⟨rfl, p, hp, rfl⟩)
    · exact ⟨a, ha, Or.inl rfl⟩
    · exact ⟨_, hp, Or.inr (by simp [Act.packet])⟩

theorem act_mem_marks {t' : Thread} {i : ℕ} {a : Act} :
    .act t' i a ∈ marks con t id acts ↔ t' = t ∧ i = id ∧ a ∈ acts := by
  rw [mem_marks]
  constructor
  · rintro (⟨b, hb, heq⟩ | ⟨-, p, -, heq⟩)
    · obtain ⟨rfl, rfl, rfl⟩ := Mark.act.inj heq
      exact ⟨rfl, rfl, hb⟩
    · rcases sendImpl_eq con t id p with ⟨-, hsend⟩ | ⟨-, hsend⟩ <;> simp [hsend] at heq
  · rintro ⟨rfl, rfl, ha⟩
    exact Or.inl ⟨a, ha, rfl⟩

theorem opened_notMem_marks : .opened ∉ marks con t id acts := by
  rw [mem_marks]
  rintro (⟨a, -, heq⟩ | ⟨-, p, -, heq⟩)
  · simp at heq
  · rcases sendImpl_eq con t id p with ⟨-, hsend⟩ | ⟨-, hsend⟩ <;> simp [hsend] at heq

/-- What a call posts: the sends of a user thread. -/
theorem mem_posts {e : ℕ × Packet} :
    e ∈ posts t id acts ↔ t = .user ∧ e.1 = id ∧ .send e.2 ∈ acts := by
  obtain ⟨i, p⟩ := e
  rw [posts]
  split
  · rename_i ht
    simp only [List.mem_map, List.mem_filterMap, Prod.mk.injEq, ht, true_and]
    constructor
    · rintro ⟨q, ⟨a, ha, hq⟩, rfl, rfl⟩
      cases a with
      | send r =>
          obtain rfl : r = q := by simpa [Act.packet] using hq
          exact ⟨rfl, ha⟩
      | _ => exact absurd hq (by simp [Act.packet])
    · rintro ⟨rfl, hp⟩
      exact ⟨p, ⟨_, hp, rfl⟩, rfl, rfl⟩
  · rename_i ht
    simp [ht]

end Marks

/-! ### The invariant -/

/-- Such an entry was made since the connection opened. -/
def Since (P : Mark → Prop) (log : List Mark) : Prop :=
  ∃ before m after, log = before ++ m :: after ∧ P m ∧ .opened ∉ after

/-- It still holds after more marks, none of which opens a connection. -/
theorem Since.append {P : Mark → Prop} {log l : List Mark} (h : Since P log)
    (hl : .opened ∉ l) : Since P (log ++ l) := by
  obtain ⟨before, m, after, rfl, hm, hafter⟩ := h
  refine ⟨before, m, after ++ l, by simp, hm, fun hmem => ?_⟩
  exact (List.mem_append.mp hmem).elim hafter hl

/-- It holds after a mark that makes it so. -/
theorem Since.concat {P : Mark → Prop} (log : List Mark) {m : Mark} (hm : P m) :
    Since P (log ++ [m]) :=
  ⟨log, m, [], rfl, hm, by simp⟩

/-- What was seen just now is seen since the connection opened. -/
theorem Since.of_mem {P : Mark → Prop} (log : List Mark) {l : List Mark} {m : Mark}
    (hmem : m ∈ l) (hm : P m) (hl : .opened ∉ l) : Since P (log ++ l) := by
  obtain ⟨l₁, l₂, rfl⟩ := List.append_of_mem hmem
  exact ⟨log ++ l₁, m, l₂, by simp, hm, fun hopened => hl (by simp [hopened])⟩

/-- The server has confirmed the namespace to the socket since the connection opened. -/
def Confirmed (id : ℕ) (nsp : List Char) : List Mark → Prop :=
  Since fun m => ∃ p, m = .received id p ∧ p.type = Packet.typeConnect ∧ p.nsp = nsp

/-- The packet that a socket gives to the client, or that is sent. -/
def Mark.carries : Mark → Option (ℕ × Packet)
  | .act _ id (.send p) => some (id, p)
  | .sent _ id p => some (id, p)
  | _ => none

/-- Whatever a socket gives to the client, and whatever is sent, but the question for its
namespace, comes after the namespace was confirmed. -/
def Gated (before : List Mark) (m : Mark) : Prop :=
  ∀ id p, m.carries = some (id, p) → p.type ≠ Packet.typeConnect → Confirmed id p.nsp before

/-- Nothing comes from a socket that is closed. -/
def Silent (before : List Mark) (m : Mark) : Prop :=
  ∀ t id a, m = .act t id a → ∀ t', .act t' id .closed ∉ before

/-- A history grows by entries that are all in order after any of them. -/
theorem along_append_of_mem {P : List Mark → Mark → Prop} {log l : List Mark} (h : Along P log)
    (hl : ∀ m ∈ l, ∀ before, (∀ b ∈ before, b ∈ l) → P (log ++ before) m) : Along P (log ++ l) :=
  h.append fun before m after heq => hl m (by simp [heq]) before fun b hb => by simp [heq, hb]

namespace Namespaces

/-- The map holds the open sockets, and what has been seen is in order: gated, silent after
a close, and true to the state of each socket. -/
structure Inv (s : Namespaces) : Prop where
  keys : (s.sockets.map Prod.fst).Nodup
  registered : ∀ nsp id, (nsp, id) ∈ s.sockets ↔
    id < s.made ∧ (s.socket id).client = true ∧ (s.socket id).nsp = nsp
  sound : ∀ id, (s.socket id).Sound
  confirmed : ∀ id, (s.socket id).connected = true → Confirmed id (s.socket id).nsp s.log
  posted : ∀ id p, (id, p) ∈ s.posted → p.type ≠ Packet.typeConnect → Confirmed id p.nsp s.log
  gated : Along Gated s.log
  silent : Along Silent s.log
  acts : ∀ t id a, .act t id a ∈ s.log → id < s.made
  ended : ∀ id, (∃ t, .act t id .closed ∈ s.log) ↔ id < s.made ∧ (s.socket id).client = false
  closing : ∀ t id, .act t id .closing ∈ s.log → (s.socket id).client = true →
    (s.socket id).Closing
  made : ∀ id, (s.socket id).client = true → id < s.made

theorem inv_init : init.Inv where
  keys := List.nodup_nil
  registered := by simp [init]
  sound := fun _ => ⟨by simp [init, Socket.make], by simp [init, Socket.make]⟩
  confirmed := by simp [init, Socket.make]
  posted := by simp [init]
  gated := along_nil _
  silent := along_nil _
  acts := by simp [init]
  ended := by simp [init]
  closing := by simp [init]
  made := by simp [init]

/-- Removing a name from a map with one entry for each name. -/
theorem mem_eraseP_iff {es : List (List Char × ℕ)} (h : (es.map Prod.fst).Nodup)
    (nsp : List Char) (e : List Char × ℕ) :
    e ∈ es.eraseP (fun e => e.1 = nsp) ↔ e ∈ es ∧ e.1 ≠ nsp := by
  induction es with
  | nil => simp
  | cons e' es ih =>
      obtain ⟨hnot, hrest⟩ := List.nodup_cons.mp h
      by_cases he' : e'.1 = nsp
      · rw [List.eraseP_cons_of_pos (by simpa using he'), List.mem_cons]
        constructor
        · intro he
          refine ⟨Or.inr he, fun hname => hnot ?_⟩
          rw [he', ← hname]
          exact List.mem_map_of_mem he
        · rintro ⟨rfl | he, hname⟩
          · exact absurd he' hname
          · exact he
      · rw [List.eraseP_cons_of_neg (by simpa using he'), List.mem_cons, List.mem_cons, ih hrest]
        constructor
        · rintro (rfl | ⟨he, hname⟩)
          · exact ⟨Or.inl rfl, he'⟩
          · exact ⟨Or.inr he, hname⟩
        · rintro ⟨rfl | he, hname⟩
          · exact Or.inl rfl
          · exact Or.inr ⟨he, hname⟩

/-- One entry for each name. -/
theorem eq_of_mem {es : List (List Char × ℕ)} (h : (es.map Prod.fst).Nodup) {nsp : List Char}
    {i j : ℕ} (hi : (nsp, i) ∈ es) (hj : (nsp, j) ∈ es) : i = j := by
  have heq := List.inj_on_of_nodup_map h hi hj rfl
  exact (Prod.mk.inj heq).2

theorem any_isClosed {acts : List Act} : acts.any Act.isClosed = true ↔ .closed ∈ acts := by
  rw [List.any_eq_true]
  constructor
  · rintro ⟨a, ha, hclosed⟩
    cases a with
    | closed => exact ha
    | _ => exact absurd hclosed (by simp [Act.isClosed])
  · exact fun h => ⟨_, h, rfl⟩

section Call

variable {s : Namespaces} {t : Thread} {op : Socket → Socket × List Act} {id : ℕ}
  {confirmed : Prop} {ps : List Packet}

@[simp] theorem call_conState : (s.call t op id).conState = s.conState := rfl

@[simp] theorem call_online : (s.call t op id).online = s.online := rfl

@[simp] theorem call_made : (s.call t op id).made = s.made := rfl

@[simp] theorem call_log :
    (s.call t op id).log = s.log ++ marks s.conState t id (op (s.socket id)).2 := rfl

@[simp] theorem call_posted :
    (s.call t op id).posted = s.posted ++ posts t id (op (s.socket id)).2 := rfl

theorem call_socket (i : ℕ) :
    (s.call t op id).socket i = if i = id then (op (s.socket id)).1 else s.socket i := by
  simp only [call, Function.update_apply]

/-- What the call of `op` does to the socket `id`. -/
abbrev Does (s : Namespaces) (op : Socket → Socket × List Act) (id : ℕ) (confirmed : Prop)
    (ps : List Packet) : Prop :=
  Socket.Does (s.socket id) confirmed ps (op (s.socket id)).1 (op (s.socket id)).2

/-- The map after a call. -/
theorem Inv.registered_call (h : s.Inv) (hid : id < s.made) (hdoes : s.Does op id confirmed ps)
    (nsp : List Char) (i : ℕ) :
    (nsp, i) ∈ (s.call t op id).sockets ↔
      i < s.made ∧ ((s.call t op id).socket i).client = true ∧
        ((s.call t op id).socket i).nsp = nsp := by
  rw [call_socket]
  rcases hdoes.ends with ⟨hacts, hlive, hdead⟩ | ⟨hacts, hclient⟩
  · have hmem : ((s.socket id).nsp, id) ∈ s.sockets := (h.registered _ _).mpr ⟨hid, hlive, rfl⟩
    have hsockets : (s.call t op id).sockets =
        s.sockets.eraseP fun e => e.1 = (s.socket id).nsp := by
      simp only [call, hacts, hdoes.nsp]
      rfl
    rw [hsockets, mem_eraseP_iff h.keys]
    by_cases hi : i = id
    · subst hi
      rw [if_pos rfl, hdead]
      simp only [Bool.false_eq_true, false_and, and_false, iff_false, not_and, not_not]
      exact fun hmem' => ((h.registered _ _).mp hmem').2.2.symm
    · rw [if_neg hi, h.registered]
      refine and_iff_left_of_imp fun hi' hname => hi ?_
      have hname : nsp = (s.socket id).nsp := hname
      rw [← hname] at hmem
      exact eq_of_mem h.keys ((h.registered _ _).mpr hi') hmem
  · have hsockets : (s.call t op id).sockets = s.sockets := by
      simp only [call, if_neg (mt any_isClosed.mp hacts)]
    rw [hsockets, h.registered]
    by_cases hi : i = id
    · subst hi
      rw [if_pos rfl, hclient, hdoes.nsp]
    · rw [if_neg hi]

/-- A call leaves one entry for each name. -/
theorem Inv.keys_call (h : s.Inv) : ((s.call t op id).sockets.map Prod.fst).Nodup := by
  have hsub : ((s.call t op id).sockets.map Prod.fst).Sublist (s.sockets.map Prod.fst) := by
    simp only [Namespaces.call]
    split
    · exact List.eraseP_sublist.map _
    · exact List.Sublist.refl _
  exact hsub.nodup h.keys

/-- A socket that is connected after a call has its namespace confirmed. -/
theorem Inv.confirmed_of_connected (h : s.Inv) (hdoes : s.Does op id confirmed ps)
    (hconfirmed : confirmed → Confirmed id (s.socket id).nsp s.log)
    (hconnected : (op (s.socket id)).1.connected = true) :
    Confirmed id (s.socket id).nsp s.log := by
  rcases hdoes.connected hconnected with hc | hc
  · exact h.confirmed id hc
  · exact hconfirmed hc

/-- A call confirms a namespace only where the server has. -/
theorem Inv.confirmed_call (h : s.Inv) (hdoes : s.Does op id confirmed ps)
    (hconfirmed : confirmed → Confirmed id (s.socket id).nsp s.log) (i : ℕ)
    (hi : ((s.call t op id).socket i).connected = true) :
    Confirmed i ((s.call t op id).socket i).nsp (s.call t op id).log := by
  rw [call_socket] at hi ⊢
  rw [call_log]
  refine Since.append ?_ opened_notMem_marks
  by_cases hid : i = id
  · subst hid
    rw [if_pos rfl] at hi ⊢
    rw [hdoes.nsp]
    exact h.confirmed_of_connected hdoes hconfirmed hi
  · rw [if_neg hid] at hi ⊢
    exact h.confirmed i hi

/-- A packet other than the question is given away by a socket whose namespace is confirmed. -/
theorem Inv.confirmed_of_send (h : s.Inv) (hdoes : s.Does op id confirmed ps)
    (hconfirmed : confirmed → Confirmed id (s.socket id).nsp s.log) {p : Packet}
    (hp : .send p ∈ (op (s.socket id)).2) (hconnect : p.type ≠ Packet.typeConnect) :
    Confirmed id p.nsp s.log := by
  obtain ⟨hnsp, hsent⟩ := hdoes.sends p hp
  rw [hnsp]
  exact h.confirmed_of_connected hdoes hconfirmed (hsent hconnect)

/-- What a call posts is of a confirmed namespace. -/
theorem Inv.posted_call (h : s.Inv) (hdoes : s.Does op id confirmed ps)
    (hconfirmed : confirmed → Confirmed id (s.socket id).nsp s.log) (i : ℕ) (p : Packet)
    (hp : (i, p) ∈ (s.call t op id).posted) (hconnect : p.type ≠ Packet.typeConnect) :
    Confirmed i p.nsp (s.call t op id).log := by
  refine Since.append ?_ opened_notMem_marks
  rcases List.mem_append.mp hp with hp | hp
  · exact h.posted i p hp hconnect
  · obtain ⟨-, hi, hsend⟩ := mem_posts.mp hp
    obtain rfl : i = id := hi
    exact h.confirmed_of_send hdoes hconfirmed hsend hconnect

/-- What a call sends is of a confirmed namespace. -/
theorem Inv.gated_call (h : s.Inv) (hdoes : s.Does op id confirmed ps)
    (hconfirmed : confirmed → Confirmed id (s.socket id).nsp s.log) :
    Along Gated (s.call t op id).log := by
  refine along_append_of_mem h.gated fun m hm before hbefore i p hcarries hconnect => ?_
  have hsend : i = id ∧ .send p ∈ (op (s.socket id)).2 := by
    rcases mem_marks.mp hm with ⟨a, ha, rfl⟩ | ⟨-, q, hq, rfl⟩
    · cases a with
      | send q =>
          obtain ⟨rfl, rfl⟩ : id = i ∧ q = p := by simpa [Mark.carries] using hcarries
          exact ⟨rfl, ha⟩
      | _ => exact absurd hcarries (by simp [Mark.carries])
    · rcases sendImpl_eq s.conState t id q with ⟨-, hsent⟩ | ⟨-, hlost⟩
      · rw [hsent] at hcarries
        obtain ⟨rfl, rfl⟩ : id = i ∧ q = p := by simpa [Mark.carries] using hcarries
        exact ⟨rfl, hq⟩
      · rw [hlost] at hcarries
        exact absurd hcarries (by simp [Mark.carries])
  obtain ⟨rfl, hsend⟩ := hsend
  exact (h.confirmed_of_send hdoes hconfirmed hsend hconnect).append
    fun hopened => opened_notMem_marks (hbefore _ hopened)

/-- The sockets that have closed stay silent. -/
theorem Inv.silent_call (h : s.Inv) (hdoes : s.Does op id confirmed ps) :
    Along Silent (s.call t op id).log := by
  have hold : ∀ t' a, .act t id a ∈ marks s.conState t id (op (s.socket id)).2 →
      .act t' id .closed ∉ s.log := by
    intro t' a ha hclosed
    have hdead := ((h.ended id).mp ⟨t', hclosed⟩).2
    have hmem := (act_mem_marks.mp ha).2.2
    rw [hdoes.dead hdead] at hmem
    exact absurd hmem (by simp)
  rcases hdoes.ends with ⟨hacts, -⟩ | ⟨hacts, -⟩
  · have hmarks : marks s.conState t id (op (s.socket id)).2 = [.act t id .closed] := by
      rw [hacts]
      simp [marks, Act.packet]
    rw [call_log, hmarks]
    refine along_concat.mpr ⟨h.silent, fun t₁ i a hm t' => ?_⟩
    obtain ⟨rfl, rfl, rfl⟩ := Mark.act.inj hm
    exact hold t' .closed (by simp [hmarks])
  · refine along_append_of_mem h.silent fun m hm before hbefore t₁ i a heq t' hclosed => ?_
    rw [heq] at hm
    obtain ⟨rfl, rfl, -⟩ := act_mem_marks.mp hm
    rcases List.mem_append.mp hclosed with hclosed | hclosed
    · exact hold t' a hm hclosed
    · exact hacts (act_mem_marks.mp (hbefore _ hclosed)).2.2

/-- Only sockets that were made act. -/
theorem Inv.acts_call (h : s.Inv) (hid : id < s.made) (t' : Thread) (i : ℕ) (a : Act)
    (ha : .act t' i a ∈ (s.call t op id).log) : i < s.made := by
  rcases List.mem_append.mp ha with ha | ha
  · exact h.acts t' i a ha
  · obtain ⟨-, rfl, -⟩ := act_mem_marks.mp ha
    exact hid

theorem client_call (hdoes : s.Does op id confirmed ps) {i : ℕ}
    (hclient : ((s.call t op id).socket i).client = true) : (s.socket i).client = true := by
  rw [call_socket] at hclient
  by_cases hi : i = id
  · subst hi
    rw [if_pos rfl] at hclient
    rcases hdoes.ends with ⟨-, hlive, -⟩ | ⟨-, hsame⟩
    · exact hlive
    · rw [← hsame, hclient]
  · rwa [if_neg hi] at hclient

/-- A socket that closes has lost its client. -/
theorem Inv.ended_call (h : s.Inv) (hid : id < s.made) (hdoes : s.Does op id confirmed ps)
    (i : ℕ) : (∃ t', .act t' i .closed ∈ (s.call t op id).log) ↔
      i < s.made ∧ ((s.call t op id).socket i).client = false := by
  have hsplit : (∃ t', .act t' i .closed ∈ (s.call t op id).log) ↔
      (∃ t', .act t' i .closed ∈ s.log) ∨ i = id ∧ .closed ∈ (op (s.socket id)).2 := by
    simp only [call_log, List.mem_append, act_mem_marks, exists_or]
    exact or_congr_right ⟨fun ⟨_, _, hclosed⟩ => hclosed, fun hclosed => ⟨t, rfl, hclosed⟩⟩
  rw [hsplit, h.ended, call_socket]
  by_cases hi : i = id
  · subst hi
    rw [if_pos rfl]
    rcases hdoes.ends with ⟨hacts, -, hdead⟩ | ⟨hacts, hclient⟩
    · simp [hacts, hdead, hid]
    · simp [hacts, hclient]
  · simp [hi]

/-- A socket that the user closes waits for its end. -/
theorem Inv.closing_call (h : s.Inv) (hdoes : s.Does op id confirmed ps) (t' : Thread) (i : ℕ)
    (hlog : .act t' i .closing ∈ (s.call t op id).log)
    (hlive : ((s.call t op id).socket i).client = true) :
    ((s.call t op id).socket i).Closing := by
  have hlive' := client_call hdoes hlive
  rw [call_socket] at hlive ⊢
  by_cases hi : i = id
  · subst hi
    rw [if_pos rfl] at hlive ⊢
    refine hdoes.closing hlive ?_
    rcases List.mem_append.mp hlog with hlog | hlog
    · exact Or.inl (h.closing t' i hlog hlive')
    · exact Or.inr (act_mem_marks.mp hlog).2.2
  · rw [if_neg hi] at hlive ⊢
    rcases List.mem_append.mp hlog with hlog | hlog
    · exact h.closing t' i hlog hlive
    · exact absurd (act_mem_marks.mp hlog).2.1 hi

/-- **A call keeps the invariant.** -/
theorem Inv.call (h : s.Inv) (hid : id < s.made) (hdoes : s.Does op id confirmed ps)
    (hconfirmed : confirmed → Confirmed id (s.socket id).nsp s.log) : (s.call t op id).Inv where
  keys := h.keys_call
  registered := h.registered_call hid hdoes
  sound := fun i => by
    rw [call_socket]
    split
    · exact hdoes.sound
    · exact h.sound i
  confirmed := h.confirmed_call hdoes hconfirmed
  posted := h.posted_call hdoes hconfirmed
  gated := h.gated_call hdoes hconfirmed
  silent := h.silent_call hdoes
  acts := h.acts_call hid
  ended := h.ended_call hid hdoes
  closing := h.closing_call hdoes
  made := fun i hlive => h.made i (client_call hdoes hlive)

end Call

/-! ### All sockets -/

section Invoke

variable {t : Thread} {op : Socket → Socket × List Act}

/-- What each call preserves, calls to all sockets preserve. -/
theorem foldl_call {P : Namespaces → Prop}
    (hcall : ∀ s : Namespaces, s.Inv → P s → ∀ id < s.made, P (s.call t op id))
    (hop : ∀ k : Socket, k.Sound → Socket.Does k False [] (op k).1 (op k).2) :
    ∀ (ids : List ℕ) (s : Namespaces), s.Inv → P s → (∀ id ∈ ids, id < s.made) →
      (ids.foldl (fun s id => s.call t op id) s).Inv ∧
        P (ids.foldl (fun s id => s.call t op id) s)
  | [], _, h, hP, _ => ⟨h, hP⟩
  | id :: ids, s, h, hP, hids =>
      foldl_call hcall hop ids (s.call t op id)
        (h.call (hids id (by simp)) (hop _ (h.sound id)) False.elim)
        (hcall s h hP id (hids id (by simp)))
        fun id' hid' => hids id' (List.mem_cons_of_mem id hid')

/-- The invariant, and whatever each call preserves. -/
theorem Inv.invoke {s : Namespaces} (h : s.Inv) {P : Namespaces → Prop} (hP : P s)
    (hop : ∀ k : Socket, k.Sound → Socket.Does k False [] (op k).1 (op k).2)
    (hcall : ∀ s : Namespaces, s.Inv → P s → ∀ id < s.made, P (s.call t op id)) :
    (s.invoke t op).Inv ∧ P (s.invoke t op) := by
  refine foldl_call hcall hop _ s h hP fun id hid => ?_
  obtain ⟨⟨nsp, id'⟩, hmem, rfl⟩ := List.mem_map.mp hid
  exact ((h.registered nsp id').mp hmem).1

end Invoke

/-! ### New sockets -/

/-- The new entry and the old ones. -/
theorem mem_insertSocket {nsp : List Char} {id : ℕ} {es : List (List Char × ℕ)}
    (e : List Char × ℕ) : e ∈ insertSocket nsp id es ↔ e = (nsp, id) ∨ e ∈ es := by
  induction es with
  | nil => simp [insertSocket]
  | cons e' es ih =>
      rw [insertSocket]
      split
      · simp
      · rw [List.mem_cons, ih, List.mem_cons]
        exact or_left_comm

theorem nodup_insertSocket {nsp : List Char} {id : ℕ} {es : List (List Char × ℕ)}
    (h : (es.map Prod.fst).Nodup) (hnew : nsp ∉ es.map Prod.fst) :
    ((insertSocket nsp id es).map Prod.fst).Nodup := by
  induction es with
  | nil => simp [insertSocket]
  | cons e es ih =>
      rw [insertSocket]
      split
      · exact List.nodup_cons.mpr ⟨hnew, h⟩
      · obtain ⟨hnot, hrest⟩ := List.nodup_cons.mp h
        rw [List.map_cons, List.mem_cons, not_or] at hnew
        rw [List.map_cons]
        refine List.nodup_cons.mpr ⟨fun hmem => ?_, ih hrest hnew.2⟩
        obtain ⟨e', he', hname⟩ := List.mem_map.mp hmem
        rcases (mem_insertSocket e').mp he' with rfl | he'
        · exact hnew.1 hname
        · exact hnot (hname ▸ List.mem_map_of_mem he')

/-- A socket has been made and put into the map. -/
def add (s : Namespaces) (nsp : List Char) : Namespaces :=
  { s with
    socket := Function.update s.socket s.made (Socket.make nsp)
    made := s.made + 1
    sockets := insertSocket nsp s.made s.sockets }

theorem add_socket (s : Namespaces) (nsp : List Char) (i : ℕ) :
    (s.add nsp).socket i = if i = s.made then Socket.make nsp else s.socket i := by
  simp only [add, Function.update_apply]

theorem Inv.add {s : Namespaces} (h : s.Inv) {nsp : List Char}
    (hnew : nsp ∉ s.sockets.map Prod.fst) : (s.add nsp).Inv := by
  have hlog : ∀ t a, .act t s.made a ∉ s.log := fun t a ha => lt_irrefl _ (h.acts t _ a ha)
  have hmade : (s.add nsp).made = s.made + 1 := rfl
  refine ⟨nodup_insertSocket h.keys hnew, fun nsp' i => ?_, fun i => ?_, fun i hi => ?_, h.posted,
    h.gated, h.silent, fun t i a ha => (h.acts t i a ha).trans (Nat.lt_succ_self _), fun i => ?_,
    fun t i hi hlive => ?_, fun i hlive => ?_⟩
  · rw [add_socket]
    have hmem : (nsp', i) ∈ (s.add nsp).sockets ↔
        (nsp', i) = (nsp, s.made) ∨ (nsp', i) ∈ s.sockets := mem_insertSocket _
    rw [hmem, h.registered, hmade]
    by_cases hi : i = s.made
    · rw [hi, if_pos rfl]
      constructor
      · rintro (heq | ⟨hlt, -, -⟩)
        · exact ⟨Nat.lt_succ_self _, rfl, (Prod.mk.inj heq).1.symm⟩
        · exact absurd hlt (lt_irrefl _)
      · rintro ⟨-, -, hname⟩
        exact Or.inl (congrArg (·, s.made) hname.symm)
    · simp only [Prod.mk.injEq, hi, and_false, false_or, if_false]
      exact and_congr_left fun _ => ⟨fun hlt => by omega, fun hlt => by omega⟩
  · rw [add_socket]
    split
    · exact ⟨by simp [Socket.make], by simp [Socket.make]⟩
    · exact h.sound i
  · rw [add_socket] at hi ⊢
    split at hi
    · exact absurd hi (by simp [Socket.make])
    · rename_i hne
      rw [if_neg hne]
      exact h.confirmed i hi
  · have hsame : (s.add nsp).log = s.log := rfl
    rw [add_socket, hmade, hsame]
    by_cases hi : i = s.made
    · subst hi
      simp [hlog, Socket.make]
    · rw [h.ended, if_neg hi]
      exact and_congr_left fun _ => ⟨fun hlt => by omega, fun hlt => by omega⟩
  · rw [add_socket] at hlive ⊢
    by_cases hne : i = s.made
    · subst hne
      exact absurd hi (hlog _ _)
    · rw [if_neg hne] at hlive ⊢
      exact h.closing t i hi hlive
  · rw [add_socket] at hlive
    by_cases hne : i = s.made
    · rw [hne]
      exact Nat.lt_succ_self _
    · rw [if_neg hne] at hlive
      exact (h.made i hlive).trans (Nat.lt_succ_self _)

/-- **`client_impl::socket`** finds a socket or makes one. -/
theorem getSocket_cases (s : Namespaces) (t : Thread) (nsp : List Char) :
    s.getSocket t nsp = s ∨ fullName nsp ∉ s.sockets.map Prod.fst ∧
      (s.conState = .opened ∧
        s.getSocket t nsp = (s.add (fullName nsp)).call t Socket.sendConnect s.made ∨
        s.conState ≠ .opened ∧ s.getSocket t nsp = s.add (fullName nsp)) := by
  rw [getSocket]
  split
  · exact Or.inl rfl
  · rename_i hlookup
    refine Or.inr ⟨fun hmem => ?_, ?_⟩
    · obtain ⟨e, he, hname⟩ := List.mem_map.mp hmem
      have := List.lookup_eq_none_iff.mp hlookup e he
      simp [hname] at this
    · by_cases hcon : s.conState = .opened
      · exact Or.inl ⟨hcon, if_pos hcon⟩
      · exact Or.inr ⟨hcon, if_neg hcon⟩

theorem Inv.getSocket {s : Namespaces} (h : s.Inv) (t : Thread) (nsp : List Char) :
    (s.getSocket t nsp).Inv := by
  rcases getSocket_cases s t nsp with heq | ⟨hnew, ⟨hcon, heq⟩ | ⟨hcon, heq⟩⟩
  · rwa [heq]
  · rw [heq]
    have hadd := h.add hnew
    exact hadd.call (Nat.lt_succ_self _) (Socket.does_sendConnect (hadd.sound _)) False.elim
  · rw [heq]
    exact h.add hnew

end Namespaces

end MahjongAI
