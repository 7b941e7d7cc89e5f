import MahjongAI.Malformed

/-!
# Event Arguments

An event is a JSON array of a name and arguments. The socket decodes the whole array,
pushes the decoded arguments one by one on a `message::list`, and calls the listener bound
to the name with that list. `push` skips null pointers, and the decoder gives a null
pointer for some values: an argument that decodes to one is lost, and the arguments behind
it move up.

`incoming` names what a payload completes: the text of an event, or the last attachment of
a binary event that the manager holds. `putPayload_incoming` says that the decoder then
hands on the packet of that body.

## Main results

* `foldl_pushMessage`: the list is the decoded arguments without the null pointers.
* `delivered_args_iff`: the listener is called once with every argument in its place exactly when
  every argument can be read and none stands for a null pointer; `not_delivered_args`: an
  integer beyond `int64_t` does.
-/

open MahjongAI.Json

namespace MahjongAI

/-! ### Calling the listener -/

/-- `sio::event`. -/
structure SioEvent where
  nsp : List Char
  name : List Char
  messages : List Message
  needAck : Bool

section Listener

variable {L : Type*} (m_event_binding : List Char → Option L) (m_nsp : List Char)

/-- `socket::impl::on_socketio_event`: the calls of listeners. -/
def onSocketioEvent (msgId : ℤ) (name : List Char) (message : List Message) :
    List (L × SioEvent) :=
  let needAck := decide (0 ≤ msgId)
  let ev : SioEvent := ⟨m_nsp, name, message, needAck⟩
  match m_event_binding name with
  | some func => [(func, ev)]
  | none => []

/-- The calls of listeners of the socket of a namespace for a packet. -/
def handlePacket (p : Packet) : Option (List (L × SioEvent)) :=
  (onMessagePacket m_nsp p).map fun
    | .event packId name args => onSocketioEvent m_event_binding m_nsp packId name args
    | _ => []

/-- The calls of listeners for a payload that the manager takes. -/
def receive [LexicalCast] (m : PacketManager) (payload : List Char) : Option (List (L × SioEvent))
    :=
  (m.putPayload payload).bind fun
    | (_, some p) => handlePacket m_event_binding m_nsp p
    | (_, none) => some []

end Listener

/-! ### What a payload completes -/

/-- A packet that has come in whole: its type, its namespace, its id, the JSON text and the
attachments. -/
structure Incoming where
  type : ℤ
  nsp : List Char
  packId : ℤ
  json : List Char
  buffers : List Buffer

/-- The packet that a payload completes: a text without attachments, or the last attachment
of the packet that is held. -/
def incoming [LexicalCast] (m : PacketManager) (payload : List Char) : Option Incoming :=
  if isTextMessage payload then
    let l := layout payload
    if l.count = none then
      (l.packId.elim (some (-1)) lexicalCastInt).bind fun packId =>
        l.json.map fun json => ⟨l.type, l.nsp, packId, json, []⟩
    else none
  else if isBinaryMessage payload then
    m.partialPacket.bind fun w =>
      match w.pendingBuffers, w.buffers ++ [payload.tail] with
      | 1, json :: buffers => some ⟨w.type, w.nsp, w.packId, json, buffers⟩
      | _, _ => none
  else none

/-- **The decoder** hands on the packet of the body that a payload completes, or throws with
it. -/
theorem putPayload_incoming [LexicalCast] {m : PacketManager} {payload : List Char} {i : Incoming}
    (h : incoming m payload = some i) :
    ∃ (m' : PacketManager) (p : Packet),
      p.type = i.type ∧ p.nsp = i.nsp ∧ p.packId = i.packId ∧
      m.putPayload payload = (Packet.readMessage i.buffers i.json).map fun message =>
        (m', some { p with message := message }) := by
  rw [incoming] at h
  split at h
  · rename_i htext
    simp only at h
    split at h
    · rename_i hcount
      obtain ⟨packId, hid, h⟩ := Option.bind_eq_some_iff.mp h
      obtain ⟨json, hjson, rfl⟩ := Option.map_eq_some_iff.mp h
      refine ⟨m, Packet.ofLayout (layout payload) 0 packId, rfl, rfl, rfl, ?_⟩
      rw [PacketManager.putPayload, if_pos htext, Packet.parse_eq_read, hcount]
      simp only [Option.elim_none, Option.bind_some, Packet.read, hid, hjson, hcount,
        Option.isSome_none, Bool.false_eq_true, if_false, Option.map_map]
      rfl
    · exact absurd h (by simp)
  · rename_i htext
    split at h
    · rename_i hbinary
      obtain ⟨w, hw, h⟩ := Option.bind_eq_some_iff.mp h
      split at h
      · rename_i json buffers hpending hbuffers
        obtain rfl := Option.some.inj h
        refine ⟨⟨none⟩, { w with pendingBuffers := 0, buffers := [] }, rfl, rfl, rfl, ?_⟩
        rw [PacketManager.putPayload, if_neg htext, if_pos hbinary, hw]
        simp only [Packet.parseBuffer, hpending, hbuffers, Nat.zero_lt_one, if_true,
          Option.map_map]
        rfl
      · exact absurd h (by simp)
    · exact absurd h (by simp)

/-! ### The arguments -/

/-- **`push` skips null pointers**: the list is the other messages. -/
theorem foldl_pushMessage (ms list : List Message) :
    ms.foldl pushMessage list =
      list ++ ms.filter fun m => match m with | .nullptr => false | _ => true := by
  induction ms generalizing list with
  | nil => simp
  | cons m ms ih =>
      rw [List.foldl_cons, ih]
      cases m <;> simp [pushMessage]

/-- The list is all of the messages exactly when none is a null pointer. -/
theorem foldl_pushMessage_eq_iff (ms : List Message) :
    ms.foldl pushMessage [] = ms ↔ ∀ m ∈ ms, m ≠ .nullptr := by
  rw [foldl_pushMessage, List.nil_append, List.filter_eq_self]
  refine forall₂_congr fun m _ => ?_
  cases m <;> simp

/-- The elements of an array are decoded one by one. -/
theorem fromElements_iff {buffers : List Buffer} {vs : List Value} {ms : List Message} :
    fromElements buffers vs = some ms ↔
      List.Forall₂ (fun v m => fromJson buffers v = some m) vs ms := by
  induction vs generalizing ms with
  | nil =>
      rw [fromElements]
      constructor
      · intro h
        rw [← Option.some.inj h]
        exact List.Forall₂.nil
      · rintro ⟨⟩
        rfl
  | cons v vs ih =>
      rw [fromElements]
      constructor
      · intro h
        obtain ⟨m, hm, h⟩ := Option.bind_eq_some_iff.mp h
        obtain ⟨rest, hrest, h⟩ := Option.bind_eq_some_iff.mp h
        rw [← Option.some.inj h]
        exact List.Forall₂.cons hm (ih.mp hrest)
      · rintro (_ | ⟨hm, hrest⟩)
        simp only [hm, ih.mpr hrest, bind, Option.bind]

/-- The arguments come through: each can be read, and none stands for a null pointer. -/
def Json.Value.Kept (attachments : ℕ) (v : Value) : Prop :=
  v.Readable ∧ ¬v.Dangling attachments

/-- Decoded arguments without a null pointer are those of kept values. -/
theorem exists_decoded_iff {buffers : List Buffer} {vs : List Value} :
    (∃ ms, fromElements buffers vs = some ms ∧ ∀ m ∈ ms, m ≠ .nullptr) ↔
      ∀ v ∈ vs, v.Kept buffers.length := by
  induction vs with
  | nil => simp [fromElements]
  | cons v vs ih =>
      rw [List.forall_mem_cons, ← ih, fromElements, Value.Kept, ← fromJson_isSome_iff buffers v]
      constructor
      · rintro ⟨ms, h, hms⟩
        obtain ⟨m, hm, h⟩ := Option.bind_eq_some_iff.mp h
        obtain ⟨rest, hrest, h⟩ := Option.bind_eq_some_iff.mp h
        obtain rfl := Option.some.inj h
        rw [List.forall_mem_cons] at hms
        refine ⟨⟨by rw [hm]; rfl, ?_⟩, rest, hrest, hms.2⟩
        exact mt (fromJson_eq_nullptr_iff buffers hm).mpr hms.1
      · rintro ⟨⟨hread, hdangling⟩, rest, hrest, hms⟩
        obtain ⟨m, hm⟩ := Option.isSome_iff_exists.mp hread
        refine ⟨m :: rest, by simp only [hm, hrest, bind, Option.bind], ?_⟩
        exact List.forall_mem_cons.mpr
          ⟨mt (fromJson_eq_nullptr_iff buffers hm).mp hdangling, hms⟩

section Delivered

variable {L : Type*} {m_event_binding : List Char → Option L} {m : PacketManager}
  {payload : List Char} {i : Incoming} {name : List Char} {vs : List Value} {func : L}

/-- **What the socket does** with an incoming event: it throws with the decoder, or calls the
listener with the decoded arguments that are no null pointers. -/
theorem receive_event [LexicalCast] (h : incoming m payload = some i)
    (htype : i.type = Packet.typeEvent ∨ i.type = Packet.typeBinaryEvent)
    (hbody : document i.json = some (.array (.string name :: vs)))
    (hfunc : m_event_binding name = some func) :
    receive m_event_binding i.nsp m payload =
      (fromElements i.buffers vs).map fun ms =>
        [(func, ⟨i.nsp, name, ms.foldl pushMessage [], decide (0 ≤ i.packId)⟩)] := by
  obtain ⟨m', p, hptype, hnsp, hid, hput⟩ := putPayload_incoming h
  have hread : Packet.readMessage i.buffers i.json =
      (fromElements i.buffers vs).map fun ms => Message.array (.string name :: ms) := by
    rw [Packet.readMessage, hbody, Option.bind_some, fromJson, fromElements, fromJson]
    cases fromElements i.buffers vs <;> rfl
  rw [receive, hput, hread]
  cases fromElements i.buffers vs with
  | none => rfl
  | some ms =>
      have hevent : onMessagePacket i.nsp { p with message := .array (.string name :: ms) } =
          some (.event i.packId name (ms.foldl pushMessage [])) := by
        rw [onMessagePacket, if_pos hnsp, hid, hptype]
        rcases htype with htype | htype <;> rw [htype] <;> rfl
      simp only [Option.map_some, Option.bind_some, handlePacket, hevent, onSocketioEvent, hfunc]

/-- The listener bound to the name is called once, with one argument for each value behind
the name, in its place. -/
def Delivered [LexicalCast] (m_event_binding : List Char → Option L) (m : PacketManager)
    (payload : List Char) (i : Incoming) (name : List Char) (vs : List Value) (func : L) : Prop :=
  ∃ args, receive m_event_binding i.nsp m payload =
      some [(func, ⟨i.nsp, name, args, decide (0 ≤ i.packId)⟩)] ∧
    List.Forall₂ (fun v arg => fromJson i.buffers v = some arg) vs args

/-- **Event arguments** keep their number and their places exactly when each of them can be
read and none of them stands for a null pointer. -/
theorem delivered_args_iff [LexicalCast] (h : incoming m payload = some i)
    (htype : i.type = Packet.typeEvent ∨ i.type = Packet.typeBinaryEvent)
    (hbody : document i.json = some (.array (.string name :: vs)))
    (hfunc : m_event_binding name = some func) :
    Delivered m_event_binding m payload i name vs func ↔
      ∀ v ∈ vs, v.Kept i.buffers.length := by
  rw [← exists_decoded_iff, Delivered, receive_event h htype hbody hfunc]
  simp only [← fromElements_iff]
  constructor
  · rintro ⟨args, hcall, hargs⟩
    rw [hargs] at hcall
    simp only [Option.map_some, Option.some.injEq, List.cons.injEq, Prod.mk.injEq,
      SioEvent.mk.injEq, true_and, and_true] at hcall
    exact ⟨args, hargs, (foldl_pushMessage_eq_iff args).mp hcall⟩
  · rintro ⟨ms, hms, hkept⟩
    refine ⟨ms, ?_, hms⟩
    rw [hms, Option.map_some, (foldl_pushMessage_eq_iff ms).mpr hkept]

end Delivered

/-- The payload of an event with the arguments `1` and `2`. -/
def smallEvent : List Char :=
  ['4', '2', '[', '"', 'e', '"', ',', '1', ',', '2', ']']

/-- Two small integers come through. -/
theorem delivered_args_iff_small :
    @Delivered Unit decimalCast (fun _ => some ()) PacketManager.fresh smallEvent
        ⟨2, ['/'], -1, smallEvent.drop 2, []⟩ ['e'] [.number 1, .number 2] () ↔
      ∀ v ∈ [Value.number 1, Value.number 2], v.Kept 0 :=
  @delivered_args_iff Unit (fun _ => some ()) PacketManager.fresh smallEvent _ ['e'] _ ()
    decimalCast rfl (Or.inl rfl) rfl rfl

/-- The payload of an event with the arguments `2 ^ 63` and `1`. -/
def largeEvent : List Char :=
  ['4', '2', '[', '"', 'e', '"', ',', '9', '2', '2', '3', '3', '7', '2', '0', '3', '6', '8', '5',
    '4', '7', '7', '5', '8', '0', '8', ',', '1', ']']

/-- Without the condition this fails: the first of two arguments is an integer beyond
`int64_t`, and the listener is called with the second one only. -/
theorem not_delivered_args :
    ¬∃ _ : LexicalCast,
      ∀ (m_event_binding : List Char → Option Unit) (m : PacketManager), Reachable m →
      ∀ (payload : List Char) (i : Incoming) (name : List Char) (vs : List Value),
        incoming m payload = some i →
        (i.type = Packet.typeEvent ∨ i.type = Packet.typeBinaryEvent) →
        document i.json = some (.array (.string name :: vs)) →
        m_event_binding name = some () → Delivered m_event_binding m payload i name vs () := by
  rintro ⟨cast, h⟩
  have hincoming : incoming PacketManager.fresh largeEvent =
      some ⟨2, ['/'], -1, largeEvent.drop 2, []⟩ := rfl
  have hbody : document (largeEvent.drop 2) =
      some (.array [.string ['e'], .number 9223372036854775808, .number 1]) := rfl
  obtain ⟨args, hcall, hargs⟩ := h (fun _ => some ()) PacketManager.fresh Reachable.fresh
    largeEvent _ _ _ hincoming (Or.inl rfl) hbody rfl
  have helements : fromElements [] [.number 9223372036854775808, .number 1] =
      some [.nullptr, .int 1] := rfl
  have hreceive : receive (fun _ => some ()) ['/'] PacketManager.fresh largeEvent = _ :=
    receive_event hincoming (Or.inl rfl) hbody rfl
  rw [hreceive, helements] at hcall
  simp only [Option.map_some, Option.some.injEq, List.cons.injEq, Prod.mk.injEq,
    SioEvent.mk.injEq, true_and, and_true] at hcall
  have hone : args = [.int 1] := hcall.symm
  rw [hone] at hargs
  rcases hargs with _ | ⟨_, ⟨⟩⟩

end MahjongAI
