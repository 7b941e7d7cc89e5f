import MahjongAI.Program

/-!
# The Session

The program of the bot and the client under it, on an open connection. `main` binds the events
and emits `join` on its own thread; what comes in calls the listeners and the callbacks on the
network thread, and what they emit goes out before the ack of the event. The server sends
whatever payloads it likes, whenever it likes: it may confirm the namespace late, and answer
late, in any order or never. `history` is what the program has taken in.

## Main results

* `Session.replayed_of_run`: the program takes in what the server has sent, in order, and what
  it makes of it goes out.
* `Session.plays_of_run`: the bot sends a sign-in, and then legal answers.
* `Session.advances_of_run`: the bot takes every input by the rules.
-/

open Runs

namespace MahjongAI

/-- The program, the client and what the program has taken in. -/
structure Session where
  client : Endpoint Unit Callback Handler
  program : Program
  history : List Input

namespace Session

/-- `main` goes on, the next `send_impl` that was posted runs, the client pings, or a payload of
the server comes in. -/
inductive Event
  | main (i : Input)
  | run
  | ping
  | receive (payload : List Char)

/-- Only `main` binds the events and emits `join`. -/
def isMain : Input → Bool
  | .bind | .join _ => true
  | _ => false

/-- What a call is to the program. -/
def input : Call Unit Callback Handler → Option Input
  | .nobody => none
  | .event d => d.listener.map fun _ => .event d.event.name d.event.messages
  | .ack l args => some (.ack l args)

/-- The root socket, with the listeners of the program, which do nothing before they are
bound. -/
def setup (dtoa : Float → List Char) : Endpoint.Setup Unit Handler where
  dtoa := dtoa
  nsp := fun _ => ['/']
  sockets := fun nsp => if nsp = ['/'] then some () else none
  eventBinding := fun _ => bindEvents
  isNamespace := fun _ => isNamespace_root

section Step

variable (dtoa : Float → List Char)

/-- `main` has not begun. -/
def init (id : ℤ) : Session :=
  ⟨Endpoint.init (setup dtoa), Program.init id, []⟩

/-- The program takes an input, and `reply` is what the client does with its emits. -/
def feed [Tokenizer] (s : Session) (i : Input)
    (reply : List Sent → Option (Endpoint Unit Callback Handler)) : Option Session :=
  (s.program.step i).bind fun (p, out) =>
    (reply out).map fun w => ⟨w, p, s.history ++ [i]⟩

/-- One event. The listeners leave nothing in the ack message. -/
def step [Tokenizer] [LexicalCast] (s : Session) : Event → Option Session
  | .main i =>
      if isMain i then
        s.feed i fun out => out.foldlM (Endpoint.emit (setup dtoa) .user) s.client
      else none
  | .run => s.client.run.map fun w => { s with client := w }
  | .ping => (s.client.ping (setup dtoa)).map fun w => { s with client := w }
  | .receive payload =>
      (Endpoint.take (setup dtoa) s.client payload).bind fun (w, call) =>
        match input call with
        | some i => s.feed i fun out => Endpoint.respond (setup dtoa) w call ⟨out, []⟩
        | none =>
            (Endpoint.respond (setup dtoa) w call ⟨[], []⟩).map fun w => { s with client := w }

end Step

/-! ### What a step of the client shows -/

/-- The emits of the program. -/
def emitted (w : Endpoint Unit Callback Handler) : List Sent :=
  w.said.filterMap Saying.emission

/-- The call of an entry. -/
def callOf : Acks.Entry Unit Callback → Option (Callback × List Message)
  | .sent _ _ _ => none
  | .received _ _ call => call

/-- The calls of callbacks. -/
def calls (w : Endpoint Unit Callback Handler) : List (Callback × List Message) :=
  w.history.filterMap callOf

/-- The name and the arguments of an event that a listener hears. -/
def told (d : Delivery Unit Handler) : Option (List Char × List Message) :=
  d.listener.map fun _ => (d.event.name, d.event.messages)

/-- The events that listeners have heard. -/
def events (w : Endpoint Unit Callback Handler) : List (List Char × List Message) :=
  w.heard.filterMap told

def asEvent : Input → Option (List Char × List Message)
  | .event name data => some (name, data)
  | _ => none

def asAck : Input → Option (Callback × List Message)
  | .ack c args => some (c, args)
  | _ => none

/-- The program has emitted `out`, and nothing has come in. -/
structure Emits (w : Endpoint Unit Callback Handler) (out : List Sent)
    (w' : Endpoint Unit Callback Handler) : Prop where
  emitted : emitted w' = emitted w ++ out
  events : events w' = events w
  calls : calls w' = calls w
  /-- The acks have no messages. -/
  acks : ∀ u id ms, .ack u id ms ∈ w'.said → .ack u id ms ∈ w.said ∨ ms = []

section Shows

variable {dtoa : Float → List Char} {w v w' : Endpoint Unit Callback Handler}

theorem Emits.trans {out out' : List Sent} (h : Emits w out v) (h' : Emits v out' w') :
    Emits w (out ++ out') w' := by
  refine ⟨?_, h'.events.trans h.events, h'.calls.trans h.calls, fun u id ms hms => ?_⟩
  · rw [h'.emitted, h.emitted, List.append_assoc]
  · exact (h'.acks u id ms hms).elim (h.acks u id ms) Or.inr

theorem emits_act {t : Thread} {r : Socket × List Act} {out : List Sent} (h : Emits w out v)
    (hact : Endpoint.act (setup dtoa) t () v r = some w') : Emits w out w' := by
  rw [Endpoint.act_eq_some hact]
  exact ⟨h.emitted, h.events, h.calls, h.acks⟩

theorem emits_emit {t : Thread} {e : Sent}
    (hemit : Endpoint.emit (setup dtoa) t w e = some w') : Emits w [e] w' := by
  rw [Endpoint.emit_eq_act rfl] at hemit
  refine emits_act (v := w.saying e _ _)
    ⟨filterMap_concat_some w.said rfl, rfl, filterMap_concat_none w.history rfl, ?_⟩ hemit
  intro u id ms hms
  refine (List.mem_append.mp hms).imp_right fun hnew => ?_
  exact absurd (List.mem_singleton.mp hnew) (by simp)

theorem emits_emits {t : Thread} {out : List Sent}
    (hemits : out.foldlM (Endpoint.emit (setup dtoa) t) w = some w') : Emits w out w' := by
  induction out generalizing w with
  | nil =>
      obtain rfl := Option.some.inj hemits
      exact ⟨(List.append_nil _).symm, rfl, rfl, fun _ _ _ => Or.inl⟩
  | cons e out ih =>
      rw [List.foldlM_cons] at hemits
      obtain ⟨v, hv, hrest⟩ := Option.bind_eq_some_iff.mp hemits
      exact (emits_emit hv).trans (ih hrest)

/-- **A response** shows the emits of whoever is called. -/
theorem emits_respond {call : Call Unit Callback Handler} {out : List Sent}
    (hrespond : Endpoint.respond (setup dtoa) w call ⟨out, []⟩ = some w') :
    Emits w (if call.isUser then out else []) w' := by
  obtain ⟨v, hv, hlast⟩ := Option.bind_eq_some_iff.mp hrespond
  have hemits := emits_emits hv
  rw [apply_ite Response.emits] at hemits
  cases call with
  | event d =>
      simp only at hlast
      split at hlast
      · refine emits_act (v := v.replying d.socket d.msgId _) ?_ hlast
        refine ⟨(filterMap_concat_none v.said rfl).trans hemits.emitted, hemits.events,
          hemits.calls, fun u id ms hms => ?_⟩
        rcases List.mem_append.mp hms with hold | hnew
        · exact hemits.acks u id ms hold
        · obtain ⟨-, -, rfl⟩ := Saying.ack.inj (List.mem_singleton.mp hnew)
          exact Or.inr (by split <;> rfl)
      · exact Option.some.inj hlast ▸ hemits
  | _ => exact Option.some.inj hlast ▸ hemits

/-- **A payload** shows the input that it is to the program. -/
theorem shows_take [LexicalCast] {payload : List Char} {call : Call Unit Callback Handler}
    (htake : Endpoint.take (setup dtoa) w payload = some (w', call)) :
    w'.said = w.said ∧
      events w' = events w ++ ((input call).bind asEvent).toList ∧
      calls w' = calls w ++ ((input call).bind asAck).toList ∧
      call.isUser = (input call).isSome := by
  obtain ⟨m, out, -, htakes⟩ := Endpoint.takes_of_take htake
  cases htakes with
  | silent => exact ⟨rfl, (List.append_nil _).symm, (List.append_nil _).symm, rfl⟩
  | confirmed hevent hack hact =>
      rw [Endpoint.act_eq_some hact]
      exact ⟨rfl, (List.append_nil _).symm, (List.append_nil _).symm, rfl⟩
  | @event d =>
      refine ⟨rfl, ?_, ?_, ?_⟩
      · rw [events, List.filterMap_append]
        refine congrArg (events w ++ ·) ?_
        cases hd : d.listener <;> simp [told, input, hd, asEvent]
      · cases hd : d.listener <;> simp [input, hd, asAck] <;> rfl
      · cases hd : d.listener <;> simp [input, hd, Call.isUser]
  | @ack q s args acks l =>
      refine ⟨rfl, ?_, ?_, ?_⟩
      · cases l <;> exact (List.append_nil _).symm
      · rw [calls, List.filterMap_append]
        refine congrArg (calls w ++ ·) ?_
        cases l <;> rfl
      · cases l <;> rfl

end Shows

/-! ### The invariant -/

/-- The invariant: the client keeps its own, and `history` is what it has shown the program. -/
structure Inv [Tokenizer] [LexicalCast] (dtoa : Float → List Char) (id₀ : ℤ) (s : Session) :
    Prop where
  client : s.client.Inv (setup dtoa)
  program : (Program.init id₀).run s.history = some (s.program, emitted s.client)
  events : s.history.filterMap asEvent = events s.client
  acks : s.history.filterMap asAck = calls s.client
  answers : ∀ u id ms, .ack u id ms ∈ s.client.said → ms = []

theorem eq_of_feed [Tokenizer] {s s' : Session} {i : Input}
    {reply : List Sent → Option (Endpoint Unit Callback Handler)}
    (h : s.feed i reply = some s') :
    ∃ p out w, s.program.step i = some (p, out) ∧ reply out = some w ∧
      s' = ⟨w, p, s.history ++ [i]⟩ := by
  obtain ⟨⟨p, out⟩, hstep, h⟩ := Option.bind_eq_some_iff.mp h
  obtain ⟨w, hw, rfl⟩ := Option.map_eq_some_iff.mp h
  exact ⟨p, out, w, hstep, hw, rfl⟩

theorem sound_of_isText {out : List Sent} (h : ∀ e ∈ out, Program.IsText e) :
    ∀ e ∈ out, Endpoint.Sound e.msglist := by
  intro e he
  obtain ⟨ss, hss⟩ := h e he
  rw [hss]
  exact (Program.sound_strings ss).1

/-- What the program says in a sign-in and a round that it answers with `xs`. -/
def answers (name uuid room : List Char) (xs : List (Input × List Emit)) : List Sent :=
  Program.join name :: Program.signIn uuid room ++ (xs.flatMap Prod.snd).map Emit.sent

/-- Two callbacks are passed: to `join` and to `ready`. -/
theorem acks_answers (name uuid room : List Char) (xs : List (Input × List Emit)) :
    ((answers name uuid room xs).filterMap Emission.ack).length = 2 := by
  have hnone : ∀ l : List Emit, (l.map Emit.sent).filterMap Emission.ack = [] := by
    intro l
    refine List.filterMap_eq_nil_iff.mpr fun e he => ?_
    obtain ⟨x, -, rfl⟩ := List.mem_map.mp he
    cases x <;> rfl
  rw [answers, List.filterMap_append, hnone, List.append_nil]
  rfl

section Steps

variable [Tokenizer] [LexicalCast] {dtoa : Float → List Char} {id₀ : ℤ} {s s' : Session}

theorem inv_init (dtoa : Float → List Char) (id₀ : ℤ) : (init dtoa id₀).Inv dtoa id₀ where
  client := ⟨Endpoint.balanced_init, Endpoint.attentive_init⟩
  program := rfl
  events := rfl
  acks := rfl
  answers := fun _ _ _ hms => absurd hms List.not_mem_nil

/-- The client goes on alone. -/
theorem Inv.alone (h : s.Inv dtoa id₀) {w : Endpoint Unit Callback Handler}
    (hw : w.Inv (setup dtoa)) (hemits : Emits s.client [] w) :
    ({ s with client := w } : Session).Inv dtoa id₀ where
  client := hw
  program := by
    rw [hemits.emitted, List.append_nil]
    exact h.program
  events := h.events.trans hemits.events.symm
  acks := h.acks.trans hemits.calls.symm
  answers := fun u id ms hms => (hemits.acks u id ms hms).elim (h.answers u id ms)
    (fun hnil => hnil)

/-- **The program takes an input**, and the client sends its emits. -/
theorem Inv.fed (h : s.Inv dtoa id₀) {i : Input} {p : Program} {out : List Sent}
    (hstep : s.program.step i = some (p, out)) {v w : Endpoint Unit Callback Handler}
    (hw : w.Inv (setup dtoa)) (hsaid : v.said = s.client.said)
    (hevents : Session.events v = Session.events s.client ++ (asEvent i).toList)
    (hcalls : calls v = calls s.client ++ (asAck i).toList) (hemits : Emits v out w) :
    (⟨w, p, s.history ++ [i]⟩ : Session).Inv dtoa id₀ where
  client := hw
  program := by
    have hemitted : emitted v = emitted s.client := by rw [emitted, emitted, hsaid]
    rw [hemits.emitted, hemitted]
    exact Program.run_concat h.program hstep
  events := by
    rw [List.filterMap_append, h.events, hemits.events, hevents]
    cases hi : asEvent i <;> simp [hi]
  acks := by
    rw [List.filterMap_append, h.acks, hemits.calls, hcalls]
    cases hi : asAck i <;> simp [hi]
  answers := fun u id ms hms => (hemits.acks u id ms hms).elim
    (fun hold => h.answers u id ms (hsaid ▸ hold)) (fun hnil => hnil)

/-- **One event** keeps the invariant. -/
theorem Inv.step (h : s.Inv dtoa id₀) {e : Event} (hstep : s.step dtoa e = some s') :
    s'.Inv dtoa id₀ := by
  cases e with
  | main i =>
      rw [Session.step] at hstep
      split at hstep
      · rename_i hmain
        obtain ⟨p, out, w, hprogram, hw, rfl⟩ := eq_of_feed hstep
        have hsound := sound_of_isText (Program.isText_of_step hprogram)
        have hnone : asEvent i = none ∧ asAck i = none := by
          cases i <;> first | exact ⟨rfl, rfl⟩ | exact absurd hmain (by simp [isMain])
        refine h.fed hprogram (h.client.emits hsound hw) (v := s.client) rfl ?_ ?_
          (emits_emits hw)
        · rw [hnone.1, Option.toList_none, List.append_nil]
        · rw [hnone.2, Option.toList_none, List.append_nil]
      · exact absurd hstep (by simp)
  | run =>
      obtain ⟨w, hw, rfl⟩ := Option.map_eq_some_iff.mp hstep
      refine h.alone (h.client.step (e := .run) trivial hw) ?_
      rw [Endpoint.run] at hw
      split at hw
      · exact absurd hw (by simp)
      · obtain rfl := Option.some.inj hw
        exact ⟨(List.append_nil _).symm, rfl, rfl, fun _ _ _ => Or.inl⟩
  | ping =>
      rw [Session.step] at hstep
      obtain ⟨w, hw, rfl⟩ := Option.map_eq_some_iff.mp hstep
      refine h.alone (h.client.step (e := .ping) trivial hw) ?_
      rw [Endpoint.ping] at hw
      obtain ⟨⟨q, payloads⟩, -, rfl⟩ := Option.map_eq_some_iff.mp hw
      exact ⟨(List.append_nil _).symm, rfl, rfl, fun _ _ _ => Or.inl⟩
  | receive payload =>
      obtain ⟨⟨v, call⟩, htake, hstep⟩ := Option.bind_eq_some_iff.mp hstep
      obtain ⟨hsaid, hevents, hcalls, hisUser⟩ := shows_take htake
      have hv : v.Inv (setup dtoa) := ⟨h.client.balanced.take htake, h.client.attentive.take htake⟩
      have hid := Endpoint.msgId_of_take htake
      have hnil : Endpoint.Sound [] := Endpoint.sound_nil
      cases hinput : input call with
      | some i =>
          rw [hinput] at hevents hcalls hisUser
          simp only [hinput] at hstep
          obtain ⟨p, out, w, hprogram, hw, rfl⟩ := eq_of_feed hstep
          have hemits := emits_respond hw
          rw [hisUser, Option.isSome_some, if_pos rfl] at hemits
          have hsound := sound_of_isText (Program.isText_of_step hprogram)
          exact h.fed hprogram (hv.respond ⟨hsound, hnil⟩ hid hw) hsaid hevents hcalls hemits
      | none =>
          rw [hinput, Option.bind_none, Option.toList_none, List.append_nil] at hevents hcalls
          rw [hinput] at hisUser
          simp only [hinput] at hstep
          obtain ⟨w, hw, rfl⟩ := Option.map_eq_some_iff.mp hstep
          have hemits := emits_respond hw
          rw [hisUser, Option.isSome_none, if_neg (by simp)] at hemits
          refine h.alone (hv.respond ⟨by simp, hnil⟩ hid hw) ?_
          refine ⟨?_, hemits.events.trans hevents, hemits.calls.trans hcalls, ?_⟩
          · rw [hemits.emitted, emitted, emitted, hsaid]
          · exact fun u id ms hms => hsaid ▸ hemits.acks u id ms hms

/-- A step of a session. -/
def Steps (dtoa : Float → List Char) (s : Session) (e : Event) (s' : Session) : Prop :=
  s.step dtoa e = some s'

/-- **The invariant of a session**, over every run. -/
theorem inv_of_run {es : List Event} (hrun : Run (Steps dtoa) (init dtoa id₀) es s) :
    s.Inv dtoa id₀ :=
  hrun.invariant (fun hs hstep => hs.step hstep) (inv_init dtoa id₀)

/-- The packets of the bot have no attachments. -/
theorem Inv.plain (h : s.Inv dtoa id₀) {t : Thread} {q : Packet}
    (hq : q ∈ s.client.packetsOn t) : q.message.attachments = [] := by
  obtain ⟨⟨u, q'⟩, hmem, rfl⟩ := List.mem_map.mp hq
  have hhanded : (u, q') ∈ s.client.handed.map Prod.snd :=
    List.mem_map.mpr ⟨_, mem_part.mp hmem, rfl⟩
  obtain ⟨x, hx, rfl⟩ := h.client.balanced.exists_saying
    (List.mem_append_left _ (mem_part.mpr hhanded))
  cases x with
  | emit e packId =>
      have he : e ∈ emitted s.client := List.mem_filterMap.mpr ⟨_, hx, rfl⟩
      obtain ⟨ss, hss⟩ := Program.isText_of_run h.program e he
      have hnone := (Program.sound_strings (e.name :: ss)).2
      rwa [List.map_cons, ← hss] at hnone
  | ack u' msgId ackMessage =>
      obtain rfl := h.answers u' msgId ackMessage hx
      rfl

/-- The number of callbacks that the program has passed. -/
theorem Inv.count_eq (h : s.Inv dtoa id₀) :
    s.client.count = ((emitted s.client).filterMap Emission.ack).length := by
  have hsents := congrArg (fun l : List (Unit × Option Callback × Packet) =>
    (l.filterMap fun x => x.2.1).length) h.client.attentive.sents
  simp only [List.filterMap_filterMap] at hsents
  rw [Endpoint.count, emitted, List.filterMap_filterMap]
  refine Eq.trans (congrArg List.length ?_) (hsents.trans (congrArg List.length ?_))
  · refine congrFun (congrArg _ (funext fun x => ?_)) _
    cases x <;> rfl
  · refine congrFun (congrArg _ (funext fun x => ?_)) _
    cases x <;> rfl

/-- What the other end of the connection decodes of the wire: the packets of each thread, each
once and in order, and the pings. -/
def Heard (w : Endpoint Unit Callback Handler) (dtoa : Float → List Char) : Prop :=
  ∃ ps : List (Option Thread × Packet),
    PacketManager.fresh.run (w.wire.map Prod.snd) = some (PacketManager.fresh, ps.map Prod.snd) ∧
    (∀ t, PacketManager.callbacks dtoa (w.packetsOn t) = some (part (some t) ps)) ∧
    ∀ q ∈ part none ps, q = Endpoint.pingPacket

theorem Inv.heard [LawfulLexicalCast] (h : s.Inv dtoa id₀) (hcount : s.client.count < 2 ^ 31)
    (hposted : s.client.posted = []) : Heard s.client dtoa :=
  h.client.decoded hcount hposted (t := .network) fun _ _ _ hp => h.plain hp

/-! ### What the program is told -/

/-- **The bot plays**: when what it has taken in is a sign-in and a round by the rules, what it
has said are the sign-in and the legal answers to the round, in order. Their packets are handed
over in order, all of them once the namespace is confirmed, and the server decodes them, all of
them once nothing is posted. -/
theorem plays_of_run [LawfulLexicalCast] {id : ℤ} (hid : -2 ^ 31 ≤ id ∧ id < 2 ^ 31)
    {name uuid room : List Char} {deal : Input} {list : List (List Char)}
    (hdeal : deal.read id = some (.dealTile list)) {is : List Input} {t : Play}
    (hround : Run Play.Receives (Play.init id) (deal :: is) t) {es : List Event}
    (hrun : Run (Steps dtoa) (init dtoa id₀) es s)
    (hhistory : s.history = Program.handshake name uuid room id ++ deal :: is) :
    ∃ xs : List (Input × List Emit), xs.map Prod.fst = deal :: is ∧
      Run Play.Replies (Play.init id) xs t ∧ s.program = ⟨t.bot, uuid, room, .joined⟩ ∧
      s.client.said.filterMap Saying.emission = answers name uuid room xs ∧
      s.client.packetsOf () ++ (s.client.socket ()).packetQueue =
        s.client.said.map (Saying.packet (setup dtoa).nsp) ∧
      ((s.client.socket ()).connected = true → (s.client.socket ()).packetQueue = []) ∧
      (s.client.posted = [] → Heard s.client dtoa) := by
  obtain ⟨xs, hxs, hreplies, hplay⟩ := Program.answers_of_round id₀ name uuid room hid hdeal hround
  have h := inv_of_run hrun
  have hprogram := h.program
  rw [hhistory, hplay] at hprogram
  obtain ⟨hbot, hemitted⟩ := Prod.mk.inj (Option.some.inj hprogram)
  have hcount : s.client.count < 2 ^ 31 := by
    rw [h.count_eq, ← hemitted]
    exact (acks_answers name uuid room xs).trans_lt (by decide)
  refine ⟨xs, hxs, hreplies, hbot.symm, hemitted.symm, ?_, h.client.balanced.queue (),
    h.heard hcount⟩
  rw [h.client.balanced.handed (), List.filter_eq_self.mpr fun x _ => by simp]

/-- **The bot never gets stuck**: a payload that the client takes, and that continues a sign-in
and a round by the rules, is taken by the program, whose answers are sent. -/
theorem advances_of_run [LawfulLexicalCast] {id : ℤ} (hid : -2 ^ 31 ≤ id ∧ id < 2 ^ 31)
    (name uuid room : List Char) {deal : Input} {list : List (List Char)}
    (hdeal : deal.read id = some (.dealTile list)) {is : List Input} {t : Play}
    (hround : Run Play.Receives (Play.init id) (deal :: is) t) {es : List Event}
    (hrun : Run (Steps dtoa) (init dtoa id₀) es s) {payload : List Char}
    {w : Endpoint Unit Callback Handler} {call : Call Unit Callback Handler}
    (htake : Endpoint.take (setup dtoa) s.client payload = some (w, call))
    (hnext : s.history ++ (input call).toList <+:
      Program.handshake name uuid room id ++ deal :: is) :
    ∃ s', Steps dtoa s (.receive payload) s' ∧
      s'.history = s.history ++ (input call).toList := by
  have h := inv_of_run hrun
  obtain ⟨rest, hrest⟩ := hnext
  obtain ⟨xs, -, -, hplay⟩ := Program.answers_of_round id₀ name uuid room hid hdeal hround
  rw [← hrest] at hplay
  obtain ⟨p, out, outs, hsofar, -, hall⟩ := Program.exists_of_run_append hplay
  obtain ⟨p', out', next, hbefore, hprogram, rfl⟩ := Program.exists_of_run_append hsofar
  obtain ⟨rfl, rfl⟩ := Prod.mk.inj (Option.some.inj (h.program.symm.trans hbefore))
  have hsound := sound_of_isText (Program.isText_of_run hprogram)
  have hcount : w.count + (Endpoint.acksOf next).length < 2 ^ 31 := by
    have htwo := acks_answers name uuid room xs
    rw [answers, hall, List.filterMap_append, List.filterMap_append, List.length_append,
      List.length_append, ← h.count_eq] at htwo
    rw [Endpoint.count_take htake, Endpoint.acksOf]
    omega
  have hw : w.Inv (setup dtoa) := ⟨h.client.balanced.take htake, h.client.attentive.take htake⟩
  obtain ⟨w', hrespond, -⟩ := hw.exists_respond call (r := ⟨next, []⟩)
    ⟨hsound, Endpoint.sound_nil⟩ (Endpoint.msgId_of_take htake) hcount
  cases hinput : input call with
  | some i =>
      rw [hinput] at hprogram
      obtain ⟨⟨q, first⟩, hstep, hlast⟩ := Option.bind_eq_some_iff.mp hprogram
      obtain ⟨rfl, rfl⟩ := Prod.mk.inj (Option.some.inj hlast)
      rw [List.append_nil] at hrespond
      refine ⟨⟨w', q, s.history ++ [i]⟩, ?_, rfl⟩
      rw [Steps, Session.step, htake]
      simp only [Option.bind_some, hinput, feed, hstep, hrespond, Option.map_some]
  | none =>
      rw [hinput] at hprogram
      obtain ⟨rfl, rfl⟩ := Prod.mk.inj (Option.some.inj hprogram)
      refine ⟨{ s with client := w' }, ?_, (List.append_nil _).symm⟩
      rw [Steps, Session.step, htake]
      simp only [Option.bind_some, hinput, hrespond, Option.map_some]

end Steps

/-! ### A game -/

section Example

open Decimal Words

/-- The first hand of a game. -/
def firstDeal : Input :=
  .event "dealTile".toList [.array (Play.claimDeal.map Message.string)]

/-- A sign-in and a deal, as the program takes them in. -/
def game : List Input :=
  Program.handshake "1".toList "u".toList "r".toList 7 ++ [firstDeal]

def isGame : List Input → Bool
  | [.bind, .join name, .ack .join [.string uuid], .event start [.string room],
      .ack .ready [.int id], .event deal [.array [.string a, .string b, .string c, .string d]]] =>
      [name, uuid, room, start, deal, a, b, c, d] =
          ["1", "u", "r", "readyToStart", "dealTile", "c1", "c2", "d5", "b1"].map String.toList ∧
        id = 7
  | _ => false

theorem eq_of_isGame {is : List Input} (h : isGame is = true) : is = game := by
  rw [isGame.eq_def] at h
  split at h
  · obtain ⟨htexts, rfl⟩ := of_decide_eq_true h
    simp only [List.map_cons, List.map_nil, List.cons.injEq] at htexts
    obtain ⟨rfl, rfl, rfl, rfl, rfl, rfl, rfl, rfl, rfl, -⟩ := htexts
    rfl
  · exact absurd h (by simp)

/-- What happens in it: `join` waits for the namespace, and the server answers. -/
def gameEvents : List Event :=
  [.main .bind, .main (.join "1".toList), .receive "40".toList,
    .receive "431[\"u\"]".toList, .receive "42[\"readyToStart\",\"r\"]".toList,
    .receive "432[7]".toList]

/-- The last payload of the server. -/
def dealPayload : List Char :=
  "42[\"dealTile\",[\"c1\",\"c2\",\"d5\",\"b1\"]]".toList

def gameStep : Session → Event → Option Session :=
  step fun _ => []

/-- The game goes this way, and the client takes the last payload. -/
theorem exists_game : ∃ s s' : Session, ∃ w call,
    Run (Steps fun _ => []) (init (fun _ => []) 0) gameEvents s ∧
      Endpoint.take (setup fun _ => []) s.client dealPayload = some (w, call) ∧
      s.history ++ (input call).toList = game ∧ Steps (fun _ => []) s (.receive dealPayload) s' ∧
      s'.history = game ∧ s'.client.posted = [] := by
  have hgame : (gameEvents.foldlM gameStep (init (fun _ => []) 0)).any (fun s =>
      (Endpoint.take (setup fun _ => []) s.client dealPayload).any (fun x =>
        isGame (s.history ++ (input x.2).toList)) &&
      (gameStep s (.receive dealPayload)).any fun s' =>
        isGame s'.history && s'.client.posted = []) = true := by
    decide +kernel
  obtain ⟨s, hs, hcheck⟩ := (Option.any_eq_true _ _).mp hgame
  rw [Bool.and_eq_true] at hcheck
  obtain ⟨⟨w, call⟩, htake, hcall⟩ := (Option.any_eq_true _ _).mp hcheck.1
  obtain ⟨s', hs', hlast⟩ := (Option.any_eq_true _ _).mp hcheck.2
  rw [Bool.and_eq_true] at hlast
  exact ⟨s, s', w, call, run_iff_foldlM.mpr hs, htake, eq_of_isGame hcall, hs',
    eq_of_isGame hlast.1, of_decide_eq_true hlast.2⟩

/-- The deal is a lawful round. -/
theorem exists_firstDeal : ∃ t, Run Play.Receives (Play.init 7) [firstDeal] t := by
  have hks : Play.claimDeal.mapM tileKind = some [0, 1, 13, 18] := by decide +kernel
  have hread : firstDeal.read 7 = some (.dealTile Play.claimDeal) := rfl
  have hlaw : (Play.init 7).Lawful (.dealTile Play.claimDeal) :=
    ⟨_, hks, by decide, 1, by decide, rfl⟩
  exact ⟨_, (Run.nil _).snoc
    ⟨_, hread, ⟨hlaw, _, Play.step_deal hks (by decide)⟩, trivial⟩⟩

/-- At the end of the game the sign-in and the answers to the deal are said, and heard. -/
theorem plays_of_run_game : ∃ (s : Session) (xs : List (Input × List Emit)),
    s.history = game ∧ xs.map Prod.fst = [firstDeal] ∧
      s.client.said.filterMap Saying.emission =
        answers "1".toList "u".toList "r".toList xs ∧ Heard s.client fun _ => [] := by
  obtain ⟨s, s', w, call, hrun, -, -, hlast, hhistory, hposted⟩ := exists_game
  obtain ⟨t, hround⟩ := exists_firstDeal
  obtain ⟨xs, hxs, -, -, hsaid, -, -, hheard⟩ :=
    plays_of_run (by decide) rfl hround (hrun.snoc hlast) hhistory
  exact ⟨s', xs, hhistory, hxs, hsaid, hheard hposted⟩

/-- The last payload of the game is taken. -/
theorem advances_of_run_game : ∃ s s' : Session,
    Steps (fun _ => []) s (.receive dealPayload) s' ∧ s'.history = game := by
  obtain ⟨s, -, w, call, hrun, htake, hnext, -, -, -⟩ := exists_game
  obtain ⟨t, hround⟩ := exists_firstDeal
  obtain ⟨s', hstep, hhistory⟩ := advances_of_run (by decide) "1".toList "u".toList "r".toList
    rfl hround hrun htake (hnext ▸ List.prefix_rfl)
  exact ⟨s, s', hstep, hhistory.trans hnext⟩

end Example

end Session

end MahjongAI
