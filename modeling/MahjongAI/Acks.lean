import Mathlib.Data.BitVec
import Mathlib.Logic.Function.Basic
import MahjongAI.Malformed
import MahjongAI.Runs

/-!
# Acknowledgements

An emit with a callback takes the next value of `s_global_event_id`, a counter that all
sockets of the process share, makes it the id of its packet and files the callback in
`m_acks` under it. An ack finds the callback that is filed under its id, removes it and
calls it. On its way the id is an `unsigned` counter, an `int` of the packet, an `unsigned`
key, decimal digits if it is not negative, an `int` again where the digits are read, and an
`unsigned` and an `int` once more before it is looked up.

A history is what is seen from outside: the packets that were made for the emits, and the
acks with the callbacks they called. All sockets are open, and the calls of callbacks that
are equal are told apart by the emit that passed them (`tag`).

## Main results

* `packId_of_parse`, `hasIntId_of_reachable`: the id of a received packet is the digits of
  its text, `-1` without any, and always an `int`.
* `Inv`: the ids are the values of the counter, and what is filed has not been called.
* `matched_iff`: callbacks and acks match along a run exactly when fewer than `2 ^ 31`
  callbacks are passed to it; `not_matched`: the next one is filed under an id that its
  packet does not carry.
-/

open Runs MahjongAI.Json

namespace MahjongAI

/-! ### The id of a packet -/

namespace Packet

/-- The id is an `int`. -/
def HasIntId (p : Packet) : Prop :=
  -2 ^ 31 ≤ p.packId ∧ p.packId < 2 ^ 31

instance (p : Packet) : Decidable p.HasIntId :=
  inferInstanceAs (Decidable (_ ∧ _))

/-- `get_pack_id`, which returns an `unsigned`. -/
def getPackId (packId : ℤ) : BitVec 32 :=
  BitVec.ofInt 32 packId

/-- The text of the packet carries the id `n`: it has the digits of `n` between the header
of a packet without an id and the JSON text. -/
def CarriesId (dtoa : Float → List Char) (p : Packet) (n : ℕ) : Prop :=
  p.packId = n ∧ ∀ q text buffers, p.accept dtoa = some (q, text, buffers) →
    ∃ doc, acceptOptional p.message = some (some doc, buffers) ∧
      text = '4' :: (header q.type buffers.length p.nsp (-1) true ++
        (writeInt n ++ write dtoa doc))

/-- A header with an id ends with its digits. -/
theorem header_ofNat (type : ℤ) (attachments : ℕ) (nsp : List Char) (n : ℕ) :
    header type attachments nsp n true = header type attachments nsp (-1) true ++ writeInt n := by
  simp [header]

end Packet

/-- `message::list::to_array_message`, with the name of an event in front. -/
def toArrayMessage (name : List Char) (msglist : List Message) : Message :=
  .array (.string name :: msglist)

/-- An event with an id that is not negative carries it. -/
theorem carriesId_ofMessage (dtoa : Float → List Char) (nsp name : List Char)
    (msglist : List Message) (n : ℕ) :
    (Packet.ofMessage nsp (toArrayMessage name msglist) n false).CarriesId dtoa n := by
  refine ⟨rfl, fun q text buffers haccept => ?_⟩
  rw [Packet.accept, if_neg (by simp [Packet.ofMessage])] at haccept
  obtain ⟨⟨doc, data⟩, hdoc, haccept⟩ := Option.bind_eq_some_iff.mp haccept
  obtain ⟨v, rfl⟩ : ∃ v, doc = some v := by
    obtain ⟨⟨v, rest⟩, -, heq⟩ := Option.map_eq_some_iff.mp hdoc
    exact ⟨v, (Prod.mk.inj heq).1.symm⟩
  obtain ⟨rfl, htext⟩ := Prod.mk.inj (Option.some.inj haccept)
  obtain ⟨rfl, rfl⟩ := Prod.mk.inj htext
  have hchar : Char.ofNat (Packet.frameMessage + ('0'.toNat : ℤ)).toNat = '4' := by decide
  refine ⟨v, hdoc, ?_⟩
  simp only [Packet.ofMessage, hchar, Option.isSome_some, Packet.header_ofNat, Option.map_some,
    Option.getD_some, List.append_assoc]

/-- **The id of a received packet**: what its text has between the namespace and the JSON
text, read as an `int`, and `-1` if there is nothing. -/
theorem packId_of_parse [LexicalCast] {payload : List Char} {p : Packet} {awaits : Bool}
    (h : Packet.parse payload = some (p, awaits)) :
    (layout payload).packId.elim (some (-1)) lexicalCastInt = some p.packId := by
  rw [Packet.parse_eq_read] at h
  obtain ⟨pending, -, h⟩ := Option.bind_eq_some_iff.mp h
  obtain ⟨packId, hid, h⟩ := Option.bind_eq_some_iff.mp h
  rw [hid]
  split at h
  · obtain ⟨rfl, -⟩ := Prod.mk.inj (Option.some.inj h)
    rfl
  · split at h
    · obtain ⟨rfl, -⟩ := Prod.mk.inj (Option.some.inj h)
      rfl
    · obtain ⟨m, -, h⟩ := Option.map_eq_some_iff.mp h
      obtain ⟨rfl, -⟩ := Prod.mk.inj h
      rfl

/-- `lexical_cast<int>` gives an `int` or throws. -/
theorem hasIntId_of_parse [LexicalCast] {payload : List Char} {p : Packet} {awaits : Bool}
    (h : Packet.parse payload = some (p, awaits)) : p.HasIntId := by
  have hid := packId_of_parse h
  cases hslice : (layout payload).packId with
  | none =>
      rw [hslice, Option.elim_none] at hid
      have := Option.some.inj hid
      rw [Packet.HasIntId, ← this]
      decide
  | some s =>
      rw [hslice, Option.elim_some] at hid
      exact lexicalCastInt_range hid

theorem packId_of_parseBuffer {w p : Packet} {payload : List Char} {awaits : Bool}
    (h : w.parseBuffer payload = some (p, awaits)) : p.packId = w.packId := by
  rw [Packet.parseBuffer] at h
  split at h
  · simp only at h
    split at h
    · split at h
      · exact absurd h (by simp)
      · obtain ⟨m, -, h⟩ := Option.map_eq_some_iff.mp h
        obtain ⟨rfl, -⟩ := Prod.mk.inj h
        rfl
    · obtain ⟨rfl, -⟩ := Prod.mk.inj (Option.some.inj h)
      rfl
  · obtain ⟨rfl, -⟩ := Prod.mk.inj (Option.some.inj h)
    rfl

/-- What is held and what is handed on has an `int` for an id. -/
theorem hasIntId_of_putPayload [LexicalCast] {m m' : PacketManager} {payload : List Char}
    {out : Option Packet}
    (hm : ∀ w ∈ m.partialPacket, w.HasIntId) (h : m.putPayload payload = some (m', out)) :
    (∀ w ∈ m'.partialPacket, w.HasIntId) ∧ ∀ p ∈ out, p.HasIntId := by
  -- a packet that is awaited is held, another one is handed on
  have hkeep : ∀ (p : Packet) (awaits : Bool) (held : PacketManager), p.HasIntId →
      (∀ w ∈ held.partialPacket, w.HasIntId) →
      (if awaits then (⟨some p⟩, none) else (held, some p)) = (m', out) →
      (∀ w ∈ m'.partialPacket, w.HasIntId) ∧ ∀ p ∈ out, p.HasIntId := by
    intro p awaits held hp hheld heq
    cases awaits with
    | true =>
        obtain ⟨rfl, rfl⟩ := Prod.mk.inj heq
        exact ⟨fun w hw => Option.some.inj hw ▸ hp, fun q hq => absurd hq (by simp)⟩
    | false =>
        obtain ⟨rfl, rfl⟩ := Prod.mk.inj heq
        exact ⟨hheld, fun q hq => Option.some.inj hq ▸ hp⟩
  rw [PacketManager.putPayload] at h
  split at h
  · obtain ⟨⟨p, awaits⟩, hparse, h⟩ := Option.map_eq_some_iff.mp h
    exact hkeep p awaits m (hasIntId_of_parse hparse) hm h
  · split at h
    · split at h
      · obtain ⟨rfl, rfl⟩ := Prod.mk.inj (Option.some.inj h)
        exact ⟨hm, fun q hq => absurd hq (by simp)⟩
      · rename_i w hw
        obtain ⟨⟨p, awaits⟩, hparse, h⟩ := Option.map_eq_some_iff.mp h
        have hp : p.HasIntId := by
          rw [Packet.HasIntId, packId_of_parseBuffer hparse]
          exact hm w hw
        exact hkeep p awaits ⟨none⟩ hp (fun v hv => absurd hv (by simp)) h
    · obtain ⟨⟨p, awaits⟩, hparse, h⟩ := Option.map_eq_some_iff.mp h
      exact hkeep p false m (hasIntId_of_parse hparse) hm h

/-- **What a reachable manager hands on** has an `int` for an id. -/
theorem hasIntId_of_reachable [LexicalCast] {m m' : PacketManager} (hm : Reachable m)
    {payload : List Char} {p : Packet} (h : m.putPayload payload = some (m', some p)) :
    p.HasIntId := by
  have hheld : ∀ w ∈ m.partialPacket, w.HasIntId := by
    clear h
    induction hm with
    | fresh => exact fun w hw => absurd hw (by simp [PacketManager.fresh])
    | putPayload _ hput ih => exact (hasIntId_of_putPayload ih hput).1
  exact (hasIntId_of_putPayload hheld h).2 p rfl

/-! ### Emits and acks -/

namespace Acks

/-- A packet that comes in. -/
def Received : Type :=
  {p : Packet // p.HasIntId}

/-- The counter of the process and the callbacks filed with each of its sockets. -/
structure Sockets (S C : Type*) where
  globalEventId : BitVec 32
  acks : S → BitVec 32 → Option C

/-- An emit on a socket, or an ack for a socket. -/
inductive Event (S C : Type*)
  | emit (s : S) (name : List Char) (msglist : List Message) (ack : Option C)
  | receive (s : S) (p : Received)

/-- What is seen of an event: the packet made for an emit, or the packet that came in with
the callback it called and the messages of the call. -/
inductive Entry (S C : Type*)
  | sent (s : S) (ack : Option C) (p : Packet)
  | received (s : S) (p : Received) (call : Option (C × List Message))

variable {S C D : Type*}

/-- No callbacks are filed when the process starts. -/
def Sockets.init : Sockets S C where
  globalEventId := 1
  acks := fun _ _ => none

section Step

variable [DecidableEq S]

/-- `m_acks[key] = l`, or the erasure of the key. -/
def Sockets.setAck (σ : Sockets S C) (s : S) (key : BitVec 32) (l : Option C) : Sockets S C :=
  { σ with acks := Function.update σ.acks s (Function.update (σ.acks s) key l) }

/-- `socket::impl::emit` of a socket with the namespace `nsp`: the packet that goes to
`send_packet`. -/
def emit (nsp : List Char) (σ : Sockets S C) (s : S) (name : List Char)
    (msglist : List Message) (ack : Option C) : Sockets S C × Packet :=
  let msg := toArrayMessage name msglist
  match ack with
  | some l =>
      let packId := σ.globalEventId.toInt
      ({ σ with globalEventId := σ.globalEventId + 1 }.setAck s (BitVec.ofInt 32 packId) (some l),
        Packet.ofMessage nsp msg packId false)
  | none => (σ, Packet.ofMessage nsp msg (-1) false)

/-- `socket::impl::on_socketio_ack`: the callback it calls. -/
def onSocketioAck (σ : Sockets S C) (s : S) (msgId : ℤ) : Sockets S C × Option C :=
  let key := BitVec.ofInt 32 msgId
  match σ.acks s key with
  | some l => (σ.setAck s key none, some l)
  | none => (σ, none)

/-- One event. An ack for another namespace is ignored; a packet of another type is no
event here, and an ack whose message is a null pointer ends the process. -/
def step (nsp : S → List Char) (σ : Sockets S C) : Event S C → Option (Sockets S C × Entry S C)
  | .emit s name msglist ack =>
      let (σ', p) := emit (nsp s) σ s name msglist ack
      some (σ', .sent s ack p)
  | .receive s p =>
      match onMessagePacket (nsp s) p.1 with
      | some (.ack packId args) =>
          let (σ', l) := onSocketioAck σ s (Packet.getPackId packId).toInt
          some (σ', .received s p (l.map (·, args)))
      | some .ignored => some (σ, .received s p none)
      | _ => none

/-- One event of a history. -/
def extend (nsp : S → List Char) (w : Sockets S C × List (Entry S C)) (e : Event S C) :
    Option (Sockets S C × List (Entry S C)) :=
  (step nsp w.1 e).map fun (σ, x) => (σ, w.2 ++ [x])

/-- The history of a sequence of events, from the start of the process. -/
def run (nsp : S → List Char) (es : List (Event S C)) :
    Option (Sockets S C × List (Entry S C)) :=
  es.foldlM (extend nsp) (Sockets.init, [])

end Step

/-! ### Which emit a call belongs to -/

/-- The callback that an emit passes. -/
def Event.ack : Event S C → Option C
  | .emit _ _ _ ack => ack
  | .receive _ _ => none

/-- The callback that was passed to an emit. -/
def Entry.filed : Entry S C → Option C
  | .sent _ ack _ => ack
  | .received _ _ _ => none

/-- The callback that was called. -/
def Entry.called : Entry S C → Option C
  | .sent _ _ _ => none
  | .received _ _ call => call.map Prod.fst

def Event.map (g : C → D) : Event S C → Event S D
  | .emit s name msglist ack => .emit s name msglist (ack.map g)
  | .receive s p => .receive s p

def Entry.map (g : C → D) : Entry S C → Entry S D
  | .sent s ack p => .sent s (ack.map g) p
  | .received s p call => .received s p (call.map (Prod.map g id))

def Sockets.map (g : C → D) (σ : Sockets S C) : Sockets S D where
  globalEventId := σ.globalEventId
  acks := fun s key => (σ.acks s key).map g

/-- The events with each callback marked by the place of the emit that passes it. -/
def tag (es : List (Event S C)) : List (Event S (ℕ × C)) :=
  es.mapIdx fun i e => e.map (Prod.mk i)

/-- **Matching**, of a history in which no callback is passed twice. -/
structure Matched (dtoa : Float → List Char) (h : List (Entry S C)) : Prop where
  /-- A packet for an emit with a callback carries an id. -/
  carries : ∀ s l p, Entry.sent s (some l) p ∈ h → ∃ n, p.CarriesId dtoa n
  /-- That id is not the id of another callback of the socket that has not been called. -/
  fresh : Along (fun before x => ∀ s l p, x = Entry.sent s (some l) p →
    ∀ l' p', Entry.sent s (some l') p' ∈ before → l' ∉ before.filterMap Entry.called →
      p'.packId ≠ p.packId) h
  /-- A callback is called at most once. -/
  once : (h.filterMap Entry.called).Nodup
  /-- It is called by an ack for the socket of its emit, with the id of its packet. -/
  only : Along (fun before x => ∀ s q l args, x = Entry.received s q (some (l, args)) →
    (q.1.type = Packet.typeAck ∨ q.1.type = Packet.typeBinaryAck) ∧
      ∃ p, Entry.sent s (some l) p ∈ before ∧ q.1.packId = p.packId) h
  /-- An ack without an id calls nothing. -/
  noId : ∀ s q call, Entry.received s q call ∈ h → q.1.packId = -1 → call = none

/-! ### The invariant -/

/-- The id of the emit that comes after `n` others with callbacks. -/
def idAt (n : ℕ) : ℤ :=
  (BitVec.ofNat 32 (1 + n)).toInt

theorem idAt_of_lt {n : ℕ} (h : n + 1 < 2 ^ 31) : idAt n = (n + 1 : ℕ) := by
  rw [idAt, BitVec.toInt_eq_toNat_bmod, BitVec.toNat_ofNat, Nat.mod_eq_of_lt (by omega),
    Int.bmod_eq_of_le (by omega) (by omega), Nat.add_comm]

/-- An `int` comes back from `unsigned`. -/
theorem toInt_getPackId {p : Packet} (h : p.HasIntId) :
    (Packet.getPackId p.packId).toInt = p.packId := by
  obtain ⟨hlow, hhigh⟩ := h
  rw [Packet.getPackId, BitVec.toInt_ofInt, Int.bmod_eq_of_le (by omega) (by omega)]

/-- An ack that is handled is one by its type, and has the id of the packet. -/
theorem onMessagePacket_eq_ack {nsp : List Char} {p : Packet} {packId : ℤ} {args : List Message}
    (h : onMessagePacket nsp p = some (.ack packId args)) :
    packId = p.packId ∧ (p.type = Packet.typeAck ∨ p.type = Packet.typeBinaryAck) := by
  have honEvent : ∀ (i : ℤ) (m : Message), onEvent i m ≠ some (.ack packId args) := by
    intro i m
    rw [onEvent.eq_def]
    split <;> simp
  rw [onMessagePacket] at h
  split_ifs at h with hnsp hmask hconnect hdisconnect hevent hack herror
  · exact absurd h (by simp)
  · exact absurd h (by simp)
  · exact absurd h (honEvent _ _)
  · refine ⟨?_, hack⟩
    rw [onAck.eq_def] at h
    split at h
    · exact absurd h (by simp)
    · exact (Handling.ack.inj (Option.some.inj h)).1.symm
    · exact (Handling.ack.inj (Option.some.inj h)).1.symm
  · exact absurd h (by simp)
  · exact absurd h (by simp)
  · exact absurd h (by simp)

section Steps

variable [DecidableEq S]

theorem Sockets.acks_setAck (σ : Sockets S C) (s s' : S) (key key' : BitVec 32) (l : Option C) :
    (σ.setAck s key l).acks s' key' = if s' = s ∧ key' = key then l else σ.acks s' key' := by
  rw [Sockets.setAck]
  by_cases hs : s' = s
  · subst hs
    by_cases hkey : key' = key <;> simp [hkey]
  · simp [hs]

/-- **What an event does.** -/
theorem step_eq_some {nsp : S → List Char} {σ σ' : Sockets S C} {e : Event S C} {x : Entry S C}
    (hstep : step nsp σ e = some (σ', x)) :
    (∃ s name msglist l, e = .emit s name msglist (some l) ∧
      x = .sent s (some l) (Packet.ofMessage (nsp s) (toArrayMessage name msglist)
        σ.globalEventId.toInt false) ∧
      σ' = { σ with globalEventId := σ.globalEventId + 1 }.setAck s σ.globalEventId (some l)) ∨
    (∃ s name msglist, e = .emit s name msglist none ∧
      x = .sent s none (Packet.ofMessage (nsp s) (toArrayMessage name msglist) (-1) false) ∧
      σ' = σ) ∨
    (∃ s q l args key, e = .receive s q ∧
      (q.1.type = Packet.typeAck ∨ q.1.type = Packet.typeBinaryAck) ∧
      key.toInt = q.1.packId ∧ σ.acks s key = some l ∧
      x = .received s q (some (l, args)) ∧ σ' = σ.setAck s key none) ∨
    (∃ s q, e = .receive s q ∧ x = .received s q none ∧ σ' = σ) := by
  cases e with
  | emit s name msglist ack =>
      obtain ⟨rfl, rfl⟩ := Prod.mk.inj (Option.some.inj hstep)
      cases ack with
      | some l =>
          refine Or.inl ⟨s, name, msglist, l, rfl, rfl, ?_⟩
          simp only [BitVec.ofInt_toInt]
      | none => exact Or.inr (Or.inl ⟨s, name, msglist, rfl, rfl, rfl⟩)
  | receive s q =>
      rw [step] at hstep
      split at hstep
      · rename_i packId args hack
        obtain ⟨rfl, htype⟩ := onMessagePacket_eq_ack hack
        have hkey : BitVec.ofInt 32 (Packet.getPackId q.1.packId).toInt =
            Packet.getPackId q.1.packId := BitVec.ofInt_toInt
        rw [onSocketioAck, hkey] at hstep
        cases hfind : σ.acks s (Packet.getPackId q.1.packId) with
        | some l =>
            rw [hfind] at hstep
            obtain ⟨rfl, rfl⟩ := Prod.mk.inj (Option.some.inj hstep)
            exact Or.inr (Or.inr (Or.inl
              ⟨s, q, l, args, _, rfl, htype, toInt_getPackId q.2, hfind, rfl, rfl⟩))
        | none =>
            rw [hfind] at hstep
            obtain ⟨rfl, rfl⟩ := Prod.mk.inj (Option.some.inj hstep)
            exact Or.inr (Or.inr (Or.inr ⟨s, q, rfl, rfl, rfl⟩))
      · obtain ⟨rfl, rfl⟩ := Prod.mk.inj (Option.some.inj hstep)
        exact Or.inr (Or.inr (Or.inr ⟨s, q, rfl, rfl, rfl⟩))
      · exact absurd hstep (by simp)

end Steps

section Invariant

variable {nsp : S → List Char} {σ σ' : Sockets S C} {h : List (Entry S C)}

/-- **The invariant** of the counter, the filed callbacks and the history. -/
structure Inv (nsp : S → List Char) (σ : Sockets S C) (h : List (Entry S C)) : Prop where
  /-- The counter counts the emits with callbacks. -/
  counter : σ.globalEventId = BitVec.ofNat 32 (1 + (h.filterMap Entry.filed).length)
  /-- Their packets are numbered by it. -/
  numbered : Along (fun before x => ∀ s l p, x = Entry.sent s (some l) p →
    ∃ name msglist, p = Packet.ofMessage (nsp s) (toArrayMessage name msglist)
      (idAt (before.filterMap Entry.filed).length) false) h
  /-- A callback is filed under the id of its packet. -/
  filed : ∀ s key l, σ.acks s key = some l →
    ∃ p, Entry.sent s (some l) p ∈ h ∧ p.packId = key.toInt
  /-- It is called by an ack with that id. -/
  only : Along (fun before x => ∀ s q l args, x = Entry.received s q (some (l, args)) →
    (q.1.type = Packet.typeAck ∨ q.1.type = Packet.typeBinaryAck) ∧
      ∃ p, Entry.sent s (some l) p ∈ before ∧ q.1.packId = p.packId) h
  /-- What is filed has not been called. -/
  pending : (h.filterMap Entry.filed).Nodup →
    ∀ s key l, σ.acks s key = some l → l ∉ h.filterMap Entry.called
  /-- Nothing has been called twice. -/
  once : (h.filterMap Entry.filed).Nodup → (h.filterMap Entry.called).Nodup

theorem inv_init (nsp : S → List Char) : Inv nsp (Sockets.init (C := C)) [] where
  counter := rfl
  numbered := along_nil _
  filed := fun s key l hl => absurd hl (by simp [Sockets.init])
  only := along_nil _
  pending := fun _ s key l hl => absurd hl (by simp [Sockets.init])
  once := fun _ => List.nodup_nil

/-- What has been called was passed to an emit. -/
theorem Inv.called_subset (hinv : Inv nsp σ h) {l : C} (hl : l ∈ h.filterMap Entry.called) :
    l ∈ h.filterMap Entry.filed := by
  obtain ⟨x, hx, hcalled⟩ := List.mem_filterMap.mp hl
  obtain ⟨before, after, rfl, honly⟩ := hinv.only.exists_before hx
  cases x with
  | sent s ack p => exact absurd hcalled (by simp [Entry.called])
  | received s q call =>
      obtain ⟨⟨l', args⟩, rfl, rfl⟩ := Option.map_eq_some_iff.mp hcalled
      obtain ⟨-, p, hp, -⟩ := honly s q l' args rfl
      exact List.mem_filterMap.mpr ⟨_, List.mem_append_left _ hp, rfl⟩

/-- A callback that is passed once is filed in one place. -/
theorem Inv.place_unique (hinv : Inv nsp σ h) (hnodup : (h.filterMap Entry.filed).Nodup)
    {s s' : S} {key key' : BitVec 32} {l : C} (hl : σ.acks s key = some l)
    (hl' : σ.acks s' key' = some l) : s' = s ∧ key' = key := by
  obtain ⟨p, hp, hid⟩ := hinv.filed s key l hl
  obtain ⟨p', hp', hid'⟩ := hinv.filed s' key' l hl'
  have heq := eq_of_nodup_filterMap hnodup hp' hp rfl rfl
  obtain ⟨rfl, -, rfl⟩ := Entry.sent.inj heq
  exact ⟨rfl, BitVec.eq_of_toInt_eq (hid'.symm.trans hid)⟩

/-- An entry without a callback keeps the invariant. -/
theorem Inv.silent (hinv : Inv nsp σ h) {x : Entry S C} (hfiled : x.filed = none)
    (hcalled : x.called = none) : Inv nsp σ (h ++ [x]) := by
  have hsame := filterMap_concat_none h hfiled
  have hquiet := filterMap_concat_none h hcalled
  refine ⟨?_, along_concat.mpr ⟨hinv.numbered, ?_⟩, ?_, along_concat.mpr ⟨hinv.only, ?_⟩, ?_, ?_⟩
  · rw [hsame]
    exact hinv.counter
  · rintro s l p rfl
    exact absurd hfiled (by simp [Entry.filed])
  · intro s key l hl
    obtain ⟨p, hp, hid⟩ := hinv.filed s key l hl
    exact ⟨p, List.mem_append_left _ hp, hid⟩
  · rintro s q l args rfl
    exact absurd hcalled (by simp [Entry.called])
  · rw [hsame, hquiet]
    exact hinv.pending
  · rw [hsame, hquiet]
    exact hinv.once

section Changes

variable [DecidableEq S] (hinv : Inv nsp σ h)

include hinv

/-- Filing a callback under the counter keeps the invariant. -/
theorem Inv.file (s : S) (name : List Char) (msglist : List Message) (l : C) :
    Inv nsp ({ σ with globalEventId := σ.globalEventId + 1 }.setAck s σ.globalEventId (some l))
      (h ++ [.sent s (some l) (Packet.ofMessage (nsp s) (toArrayMessage name msglist)
        σ.globalEventId.toInt false)]) := by
  have hcounter := hinv.counter
  have hfiled := filterMap_concat_some h (f := Entry.filed) (x := .sent s (some l)
    (Packet.ofMessage (nsp s) (toArrayMessage name msglist) σ.globalEventId.toInt false)) rfl
  have hquiet := filterMap_concat_none h (f := Entry.called) (x := .sent s (some l)
    (Packet.ofMessage (nsp s) (toArrayMessage name msglist) σ.globalEventId.toInt false)) rfl
  refine ⟨?_, along_concat.mpr ⟨hinv.numbered, ?_⟩, ?_, along_concat.mpr ⟨hinv.only, ?_⟩, ?_, ?_⟩
  · rw [hfiled, List.length_append, List.length_singleton, ← Nat.add_assoc, BitVec.ofNat_add,
      ← hcounter]
    rfl
  · intro s' l' p' heq
    obtain ⟨rfl, -, rfl⟩ := Entry.sent.inj heq
    exact ⟨name, msglist, by rw [hcounter, idAt]⟩
  · intro s' key' l' hl'
    rw [Sockets.acks_setAck] at hl'
    split_ifs at hl' with hplace
    · obtain rfl := Option.some.inj hl'
      obtain ⟨rfl, rfl⟩ := hplace
      exact ⟨_, List.mem_append_right _ (List.mem_singleton_self _), rfl⟩
    · obtain ⟨p', hp', hid⟩ := hinv.filed s' key' l' hl'
      exact ⟨p', List.mem_append_left _ hp', hid⟩
  · intro s' q l' args heq
    exact absurd heq (by simp)
  · rw [hfiled, hquiet]
    intro hnodup s' key' l' hl'
    obtain ⟨hold, -, hnew⟩ := List.nodup_append.mp hnodup
    rw [Sockets.acks_setAck] at hl'
    split_ifs at hl' with hplace
    · obtain rfl := Option.some.inj hl'
      exact fun hcalled => hnew _ (hinv.called_subset hcalled) _ (List.mem_singleton_self _) rfl
    · exact hinv.pending hold s' key' l' hl'
  · rw [hfiled, hquiet]
    exact fun hnodup => hinv.once (List.nodup_append.mp hnodup).1

/-- Calling the callback of a key, which is erased, keeps the invariant. -/
theorem Inv.call {s : S} {q : Received} {key : BitVec 32} {l : C}
    (htype : q.1.type = Packet.typeAck ∨ q.1.type = Packet.typeBinaryAck)
    (hkey : key.toInt = q.1.packId) (hfind : σ.acks s key = some l) (args : List Message) :
    Inv nsp (σ.setAck s key none) (h ++ [.received s q (some (l, args))]) := by
  have hsame := filterMap_concat_none h (f := Entry.filed)
    (x := .received s q (some (l, args))) rfl
  have hcalled := filterMap_concat_some h (f := Entry.called)
    (x := .received s q (some (l, args))) rfl
  refine ⟨?_, along_concat.mpr ⟨hinv.numbered, ?_⟩, ?_, along_concat.mpr ⟨hinv.only, ?_⟩, ?_, ?_⟩
  · rw [hsame]
    exact hinv.counter
  · intro s' l' p' heq
    exact absurd heq (by simp)
  · intro s' key' l' hl'
    rw [Sockets.acks_setAck] at hl'
    split_ifs at hl'
    obtain ⟨p', hp', hid⟩ := hinv.filed s' key' l' hl'
    exact ⟨p', List.mem_append_left _ hp', hid⟩
  · intro s' q' l' args' heq
    obtain ⟨rfl, rfl, hcall⟩ := Entry.received.inj heq
    obtain ⟨rfl, -⟩ := Prod.mk.inj (Option.some.inj hcall)
    obtain ⟨p, hp, hid⟩ := hinv.filed _ key _ hfind
    exact ⟨htype, p, hp, by rw [hid, hkey]⟩
  · rw [hsame, hcalled]
    intro hnodup s' key' l' hl'
    rw [Sockets.acks_setAck] at hl'
    split_ifs at hl' with hplace
    rw [List.mem_append, List.mem_singleton]
    rintro (hbefore | rfl)
    · exact hinv.pending hnodup s' key' l' hl' hbefore
    · exact hplace (hinv.place_unique hnodup hfind hl')
  · rw [hsame, hcalled]
    intro hnodup
    refine List.nodup_append.mpr ⟨hinv.once hnodup, List.nodup_singleton _, ?_⟩
    rintro l' hl' l'' hl'' rfl
    obtain rfl := List.mem_singleton.mp hl''
    exact hinv.pending hnodup s key _ hfind hl'

/-- **An event** keeps the invariant. -/
theorem Inv.step {e : Event S C} {x : Entry S C} (hstep : Acks.step nsp σ e = some (σ', x)) :
    Inv nsp σ' (h ++ [x]) := by
  rcases step_eq_some hstep with ⟨s, name, msglist, l, -, rfl, rfl⟩ |
      ⟨s, name, msglist, -, rfl, rfl⟩ | ⟨s, q, l, args, key, -, htype, hkey, hfind, rfl, rfl⟩ |
      ⟨s, q, -, rfl, rfl⟩
  · exact hinv.file s name msglist l
  · exact hinv.silent rfl rfl
  · exact hinv.call htype hkey hfind args
  · exact hinv.silent rfl rfl

end Changes

end Invariant

/-! ### The bound -/

section Bound

variable {nsp : S → List Char} {σ : Sockets S C} {h : List (Entry S C)}

theorem length_filed (before after : List (Entry S C)) (s : S) (l : C) (p : Packet) :
    ((before ++ .sent s (some l) p :: after).filterMap Entry.filed).length =
      (before.filterMap Entry.filed).length + (after.filterMap Entry.filed).length + 1 := by
  have hcons : (Entry.sent s (some l) p :: after).filterMap Entry.filed =
      l :: after.filterMap Entry.filed := List.filterMap_cons_some rfl
  rw [List.filterMap_append, hcons, List.length_append, List.length_cons, Nat.add_assoc]

/-- While the counter has not reached the sign bit, an id is the number of callbacks passed
up to its emit. -/
theorem Inv.sent_eq (hinv : Inv nsp σ h) (hlt : (h.filterMap Entry.filed).length < 2 ^ 31)
    {before after : List (Entry S C)} {s : S} {l : C} {p : Packet}
    (heq : h = before ++ .sent s (some l) p :: after) :
    ∃ name msglist, p = Packet.ofMessage (nsp s) (toArrayMessage name msglist)
      ((before.filterMap Entry.filed).length + 1 : ℕ) false := by
  obtain ⟨name, msglist, hp⟩ := hinv.numbered before _ after heq s l p rfl
  have hbefore : (before.filterMap Entry.filed).length + 1 < 2 ^ 31 := by
    rw [heq, length_filed] at hlt
    omega
  rw [idAt_of_lt hbefore] at hp
  exact ⟨name, msglist, hp⟩

/-- **Below the sign bit** everything matches. -/
theorem Inv.matched (hinv : Inv nsp σ h) (hnodup : (h.filterMap Entry.filed).Nodup)
    (hlt : (h.filterMap Entry.filed).length < 2 ^ 31) (dtoa : Float → List Char) :
    Matched dtoa h := by
  have hcarries : ∀ s l p, Entry.sent s (some l) p ∈ h → ∃ n, p.CarriesId dtoa n := by
    intro s l p hp
    obtain ⟨before, after, heq⟩ := List.append_of_mem hp
    obtain ⟨name, msglist, rfl⟩ := hinv.sent_eq hlt heq
    exact ⟨_, carriesId_ofMessage dtoa (nsp s) name msglist _⟩
  refine ⟨hcarries, ?_, hinv.once hnodup, hinv.only, ?_⟩
  · rintro before x after heq s l p rfl l' p' hp' -
    obtain ⟨first, between, rfl⟩ := List.append_of_mem hp'
    have heq' : h = first ++ .sent s (some l') p' :: (between ++ .sent s (some l) p :: after) := by
      rw [heq, List.append_assoc, List.cons_append]
    obtain ⟨name, msglist, rfl⟩ := hinv.sent_eq hlt heq
    obtain ⟨name', msglist', rfl⟩ := hinv.sent_eq hlt heq'
    -- the emit in front is counted before the other one
    intro hids
    have hnumbers := Int.ofNat.inj hids
    rw [length_filed] at hnumbers
    omega
  · intro s q call hq hid
    cases call with
    | none => rfl
    | some call =>
        obtain ⟨before, after, rfl, honly⟩ := hinv.only.exists_before hq
        obtain ⟨-, p, hp, hsame⟩ := honly s q call.1 call.2 rfl
        obtain ⟨n, hn, -⟩ := hcarries s call.1 p (List.mem_append_left _ hp)
        omega

/-- **At the sign bit** the id of a packet is negative, and the packet does not carry it. -/
theorem Inv.length_lt_of_matched (hinv : Inv nsp σ h) {dtoa : Float → List Char}
    (hmatched : Matched dtoa h) : (h.filterMap Entry.filed).length < 2 ^ 31 := by
  by_contra hge
  obtain ⟨before, x, after, heq, hx, hbefore⟩ :=
    exists_nth_filterMap Entry.filed (h := h) (n := 2 ^ 31 - 1) (by omega)
  cases x with
  | received s q call => exact absurd hx (by simp [Entry.filed])
  | sent s ack p =>
      obtain ⟨l, rfl⟩ := Option.isSome_iff_exists.mp hx
      obtain ⟨name, msglist, hp⟩ := hinv.numbered before _ after heq s l p rfl
      obtain ⟨n, hn, -⟩ := hmatched.carries s l p (by rw [heq]; simp)
      have hnegative : idAt (2 ^ 31 - 1) = -2 ^ 31 := by decide
      rw [hbefore, hnegative] at hp
      have hid : p.packId = -2 ^ 31 := by rw [hp]; rfl
      omega

end Bound

/-! ### A callback waits for its ack -/

section Waiting

variable {nsp : S → List Char} {σ σ' : Sockets S C} {h : List (Entry S C)}

/-- A callback that has not been called is filed under the id of its packet. -/
def Waiting (σ : Sockets S C) (h : List (Entry S C)) : Prop :=
  ∀ s l p, Entry.sent s (some l) p ∈ h → l ∉ h.filterMap Entry.called →
    σ.acks s (BitVec.ofInt 32 p.packId) = some l

theorem waiting_init : Waiting (Sockets.init (S := S) (C := C)) [] :=
  fun _ _ _ hp => absurd hp List.not_mem_nil

/-- The key of a packet is the number of its emit. -/
theorem Inv.exists_key (hinv : Inv nsp σ h) {s : S} {l : C} {p : Packet}
    (hp : Entry.sent s (some l) p ∈ h) : ∃ n < (h.filterMap Entry.filed).length,
      p.packId = idAt n ∧ BitVec.ofInt 32 p.packId = BitVec.ofNat 32 (1 + n) := by
  obtain ⟨before, after, rfl, hnumbered⟩ := hinv.numbered.exists_before hp
  obtain ⟨name, msglist, rfl⟩ := hnumbered s l p rfl
  refine ⟨(before.filterMap Entry.filed).length, ?_, rfl, ?_⟩
  · rw [length_filed]
    omega
  · exact BitVec.ofInt_toInt

/-- **An event** leaves the other callbacks where they are, as long as the counter has not
come round. -/
theorem Waiting.step [DecidableEq S] (hwaiting : Waiting σ h) (hinv : Inv nsp σ h)
    (hlt : (h.filterMap Entry.filed).length < 2 ^ 31) {e : Event S C} {x : Entry S C}
    (hstep : Acks.step nsp σ e = some (σ', x)) : Waiting σ' (h ++ [x]) := by
  -- an entry that calls nothing and files nothing
  have hquiet : ∀ {y : Entry S C}, (∀ s l p, y ≠ .sent s (some l) p) → y.called = none →
      Waiting σ (h ++ [y]) := by
    intro y hy hcalled s l p hp hl
    rw [filterMap_concat_none h hcalled] at hl
    rcases List.mem_append.mp hp with hp | hp
    · exact hwaiting s l p hp hl
    · exact absurd (List.mem_singleton.mp hp).symm (hy s l p)
  rcases step_eq_some hstep with ⟨s, name, msglist, l, -, rfl, rfl⟩ |
      ⟨s, name, msglist, -, rfl, rfl⟩ | ⟨s, q, l, args, key, -, htype, hkey, hfind, rfl, rfl⟩ |
      ⟨s, q, -, rfl, rfl⟩
  · intro s' l' p' hp' hl'
    rw [filterMap_concat_none h rfl] at hl'
    rw [Sockets.acks_setAck]
    rcases List.mem_append.mp hp' with hp' | hp'
    · obtain ⟨n, hn, -, hkey⟩ := hinv.exists_key hp'
      rw [if_neg, hwaiting s' l' p' hp' hl']
      rintro ⟨-, hsame⟩
      rw [hkey, hinv.counter] at hsame
      have hnumbers := congrArg BitVec.toNat hsame
      rw [BitVec.toNat_ofNat, BitVec.toNat_ofNat, Nat.mod_eq_of_lt (by omega),
        Nat.mod_eq_of_lt (by omega)] at hnumbers
      omega
    · obtain ⟨rfl, hack, rfl⟩ := Entry.sent.inj (List.mem_singleton.mp hp')
      rw [if_pos ⟨rfl, BitVec.ofInt_toInt⟩, Option.some.inj hack]
  · exact hquiet (by simp) rfl
  · intro s' l' p' hp' hl'
    rw [filterMap_concat_some h (t := l) rfl, List.mem_append, List.mem_singleton, not_or] at hl'
    rcases List.mem_append.mp hp' with hp' | hp'
    · have hold := hwaiting s' l' p' hp' hl'.1
      rw [Sockets.acks_setAck, if_neg, hold]
      rintro ⟨rfl, hsame⟩
      rw [hsame, hfind] at hold
      exact hl'.2 (Option.some.inj hold).symm
    · exact absurd (List.mem_singleton.mp hp') (by simp)
  · exact hquiet (by simp) rfl

/-- **An ack finds its callback** and calls it with its messages. -/
theorem Waiting.calls [DecidableEq S] (hwaiting : Waiting σ h) {s : S} {l : C} {p : Packet}
    (hp : Entry.sent s (some l) p ∈ h) (hl : l ∉ h.filterMap Entry.called) :
    onSocketioAck σ s (Packet.getPackId p.packId).toInt =
      (σ.setAck s (BitVec.ofInt 32 p.packId) none, some l) := by
  have hkey : BitVec.ofInt 32 (Packet.getPackId p.packId).toInt = BitVec.ofInt 32 p.packId := by
    rw [Packet.getPackId, BitVec.ofInt_toInt]
  rw [onSocketioAck, hkey, hwaiting s l p hp hl]

end Waiting

/-! ### Marks -/

theorem Event.ack_map (g : C → D) (e : Event S C) : (e.map g).ack = e.ack.map g := by
  cases e <;> rfl

theorem tag_concat (es : List (Event S C)) (e : Event S C) :
    tag (es ++ [e]) = tag es ++ [e.map (Prod.mk es.length)] :=
  List.mapIdx_concat

/-- The marks of `tag` are dropped by forgetting the places. -/
theorem map_tag (es : List (Event S C)) : (tag es).map (Event.map Prod.snd) = es := by
  induction es using List.reverseRecOn with
  | nil => rfl
  | append_singleton es e ih =>
      have hsame : (e.map (Prod.mk es.length)).map Prod.snd = e := by
        cases e with
        | emit s name msglist ack => cases ack <;> rfl
        | receive s q => rfl
      rw [tag_concat, List.map_append, ih, List.map_singleton, hsame]

/-- No marked callback is passed twice. -/
theorem nodup_tag (es : List (Event S C)) :
    ((tag es).filterMap Event.ack).Nodup ∧
      ∀ l ∈ (tag es).filterMap Event.ack, l.1 < es.length := by
  induction es using List.reverseRecOn with
  | nil => exact ⟨List.nodup_nil, fun l hl => absurd hl List.not_mem_nil⟩
  | append_singleton es e ih =>
      obtain ⟨hnodup, hlt⟩ := ih
      rw [tag_concat, List.length_append, List.length_singleton]
      cases hack : e.ack with
      | none =>
          rw [filterMap_concat_none _ (by rw [Event.ack_map, hack, Option.map_none])]
          exact ⟨hnodup, fun l hl => (hlt l hl).trans (Nat.lt_succ_self _)⟩
      | some l =>
          rw [filterMap_concat_some _ (by rw [Event.ack_map, hack, Option.map_some])]
          refine ⟨List.nodup_append.mpr ⟨hnodup, List.nodup_singleton _, ?_⟩, ?_⟩
          · rintro l' hl' l'' hl'' rfl
            have := hlt l' hl'
            rw [List.mem_singleton.mp hl''] at this
            exact absurd this (lt_irrefl _)
          · intro l' hl'
            rcases List.mem_append.mp hl' with hl' | hl'
            · exact (hlt l' hl').trans (Nat.lt_succ_self _)
            · rw [List.mem_singleton.mp hl']
              exact Nat.lt_succ_self _

/-- There are as many callbacks as before. -/
theorem length_tag (es : List (Event S C)) :
    ((tag es).filterMap Event.ack).length = (es.filterMap Event.ack).length := by
  induction es using List.reverseRecOn with
  | nil => rfl
  | append_singleton es e ih =>
      rw [tag_concat, List.filterMap_append, List.filterMap_append, List.length_append,
        List.length_append, ih]
      simp only [List.filterMap_cons, List.filterMap_nil, Event.ack_map]
      cases e.ack <;> rfl

/-! ### Runs -/

section Run

variable [DecidableEq S] {nsp : S → List Char}

theorem extend_eq_some {w w' : Sockets S C × List (Entry S C)} {e : Event S C}
    (h : extend nsp w e = some w') :
    ∃ x, step nsp w.1 e = some (w'.1, x) ∧ w'.2 = w.2 ++ [x] := by
  obtain ⟨⟨σ, x⟩, hstep, rfl⟩ := Option.map_eq_some_iff.mp h
  exact ⟨x, hstep, rfl⟩

/-- The invariant holds along every run. -/
theorem inv_of_run {es : List (Event S C)} {σ : Sockets S C} {h : List (Entry S C)}
    (hrun : run nsp es = some (σ, h)) : Inv nsp σ h := by
  have hruns := run_iff_foldlM.mpr hrun
  refine hruns.invariant (I := fun w => Inv nsp w.1 w.2) ?_ (inv_init nsp)
  intro w e w' hinv hstep
  obtain ⟨x, hx, hw'⟩ := extend_eq_some hstep
  rw [hw']
  exact hinv.step hx

/-- An entry has the callback of its event. -/
theorem filed_of_step {σ σ' : Sockets S C} {e : Event S C} {x : Entry S C}
    (hstep : step nsp σ e = some (σ', x)) : x.filed = e.ack := by
  rcases step_eq_some hstep with ⟨s, name, msglist, l, rfl, rfl, -⟩ |
      ⟨s, name, msglist, rfl, rfl, -⟩ | ⟨s, q, l, args, key, rfl, -, -, -, rfl, -⟩ |
      ⟨s, q, rfl, rfl, -⟩ <;> rfl

/-- The history has the callbacks of the events. -/
theorem filed_of_run {es : List (Event S C)} {w w' : Sockets S C × List (Entry S C)}
    (hrun : Run (fun w e w' => extend nsp w e = some w') w es w') :
    w'.2.filterMap Entry.filed = w.2.filterMap Entry.filed ++ es.filterMap Event.ack := by
  induction hrun with
  | nil => simp
  | snoc _ hlast ih =>
      obtain ⟨x, hx, hw'⟩ := extend_eq_some hlast
      have hsame := filed_of_step hx
      rw [hw', List.filterMap_append, ih, List.filterMap_append, List.append_assoc]
      simp only [List.filterMap_cons, hsame, List.filterMap_nil]

/-- Emits are never refused. -/
theorem exists_run_of_emits {es : List (Event S C)}
    (hemits : ∀ e ∈ es, ∃ s name msglist ack, e = .emit s name msglist ack) :
    ∃ σ h, run nsp es = some (σ, h) := by
  rw [run]
  generalize (Sockets.init, []) = w
  induction es generalizing w with
  | nil => exact ⟨w.1, w.2, rfl⟩
  | cons e es ih =>
      obtain ⟨s, name, msglist, ack, rfl⟩ := hemits e List.mem_cons_self
      rw [List.foldlM_cons]
      exact ih (fun e he => hemits e (List.mem_cons_of_mem _ he)) _

theorem Sockets.map_setAck (g : C → D) (σ : Sockets S C) (s : S) (key : BitVec 32)
    (l : Option C) : (σ.setAck s key l).map g = (σ.map g).setAck s key (l.map g) := by
  refine congrArg (Sockets.mk σ.globalEventId) (funext₂ fun s' key' => ?_)
  have hright := (σ.map g).acks_setAck s s' key key' (l.map g)
  refine Eq.trans ?_ hright.symm
  rw [Sockets.acks_setAck, apply_ite (Option.map g)]
  rfl

theorem step_map (g : C → D) (σ : Sockets S C) (e : Event S C) :
    step nsp (σ.map g) (e.map g) =
      (step nsp σ e).map fun (σ, x) => (σ.map g, x.map g) := by
  cases e with
  | emit s name msglist ack =>
      cases ack with
      | none => rfl
      | some l =>
          simp only [Event.map, Option.map_some, step, emit, Sockets.map_setAck, Entry.map]
          rfl
  | receive s q =>
      simp only [Event.map, step]
      cases onMessagePacket (nsp s) q.1 with
      | none => rfl
      | some handling =>
          cases handling with
          | ack packId args =>
              have hfind : (σ.map g).acks s (BitVec.ofInt 32 (Packet.getPackId packId).toInt) =
                (σ.acks s (BitVec.ofInt 32 (Packet.getPackId packId).toInt)).map g := rfl
              simp only [onSocketioAck, hfind]
              cases σ.acks s (BitVec.ofInt 32 (Packet.getPackId packId).toInt) with
              | none => rfl
              | some l =>
                  simp only [Option.map_some, Sockets.map_setAck, Entry.map]
                  rfl
          | _ => rfl

/-- **Renaming** the callbacks of the events renames those of the history. -/
theorem run_map (g : C → D) (es : List (Event S C)) :
    run nsp (es.map (Event.map g)) =
      (run nsp es).map fun (σ, h) => (σ.map g, h.map (Entry.map g)) := by
  suffices hfrom : ∀ (σ : Sockets S C) (h : List (Entry S C)),
      (es.map (Event.map g)).foldlM (extend nsp) (σ.map g, h.map (Entry.map g)) =
        (es.foldlM (extend nsp) (σ, h)).map fun (σ, h) => (σ.map g, h.map (Entry.map g)) from
    hfrom Sockets.init []
  induction es with
  | nil => exact fun _ _ => rfl
  | cons e es ih =>
      intro σ h
      rw [List.map_cons, List.foldlM_cons, List.foldlM_cons, extend, extend, step_map]
      cases step nsp σ e with
      | none => rfl
      | some r =>
          have hnext := ih r.1 (h ++ [r.2])
          rw [List.map_append, List.map_singleton] at hnext
          exact hnext

/-- **Marks do not matter**: the history of the marked events is that of the events, with the
callbacks marked. -/
theorem run_tag (es : List (Event S C)) :
    run nsp es = (run nsp (tag es)).map fun (σ, h) =>
      (σ.map Prod.snd, h.map (Entry.map Prod.snd)) := by
  rw [← run_map, map_tag]

/-- **Acks** match along a run exactly when fewer than `2 ^ 31` callbacks are passed to its
emits. -/
theorem matched_iff {es : List (Event S C)} {σ : Sockets S (ℕ × C)}
    {h : List (Entry S (ℕ × C))} (hrun : run nsp (tag es) = some (σ, h))
    (dtoa : Float → List Char) :
    Matched dtoa h ↔ (es.filterMap Event.ack).length < 2 ^ 31 := by
  have hinv := inv_of_run hrun
  have hfiled : h.filterMap Entry.filed = (tag es).filterMap Event.ack :=
    filed_of_run (run_iff_foldlM.mpr hrun)
  rw [← length_tag, ← hfiled]
  constructor
  · exact hinv.length_lt_of_matched
  · intro hlt
    refine hinv.matched ?_ hlt dtoa
    rw [hfiled]
    exact (nodup_tag es).1

end Run

/-- An ack of the root namespace with the id `1` and no messages. -/
def firstAck : Received :=
  ⟨{ Packet.fresh 4 with type := 3, nsp := ['/'], packId := 1, message := .array [] },
    by decide⟩

/-- An emit with a callback. -/
def emitWithAck : Event Unit Unit :=
  .emit () ['e'] [] (some ())

/-- An emit whose callback is called. -/
theorem matched_iff_first :
    Matched (fun _ => []) [.sent () (some (0, ()))
        (Packet.ofMessage ['/'] (toArrayMessage ['e'] []) 1 false),
      .received () firstAck (some ((0, ()), []))] ↔ 1 < 2 ^ 31 :=
  @matched_iff Unit Unit _ (fun _ => ['/']) [emitWithAck, .receive () firstAck] _ _ rfl
    (fun _ => [])

/-- After `2 ^ 31` emits with callbacks a packet does not carry its id. -/
theorem not_matched :
    ¬∀ (es : List (Event Unit Unit)) (σ : Sockets Unit (ℕ × Unit))
      (h : List (Entry Unit (ℕ × Unit))), run (fun _ => ['/']) (tag es) = some (σ, h) →
        Matched (fun _ => []) h := by
  intro hall
  have hemits : ∀ n, ∀ e ∈ List.replicate n emitWithAck,
      ∃ s name msglist ack, e = Event.emit s name msglist ack := by
    intro n e he
    exact ⟨(), ['e'], [], some (), List.eq_of_mem_replicate he⟩
  have hlength : ∀ n, ((List.replicate n emitWithAck).filterMap Event.ack).length = n := by
    intro n
    induction n with
    | zero => rfl
    | succ n ih =>
        rw [List.replicate_succ, List.filterMap_cons_some (show emitWithAck.ack = some () from rfl),
          List.length_cons, ih]
  obtain ⟨σ, h, hrun⟩ := @exists_run_of_emits _ _ _ (fun _ => ['/']) _ (hemits (2 ^ 31))
  rw [run_tag] at hrun
  obtain ⟨⟨σ', h'⟩, htag, -⟩ := Option.map_eq_some_iff.mp hrun
  have hfiled : h'.filterMap Entry.filed = _ := filed_of_run (run_iff_foldlM.mpr htag)
  have hlt := (inv_of_run htag).length_lt_of_matched (hall _ σ' h' htag)
  rw [hfiled, List.filterMap_nil, List.nil_append, length_tag, hlength] at hlt
  exact absurd hlt (lt_irrefl _)

end Acks

end MahjongAI
