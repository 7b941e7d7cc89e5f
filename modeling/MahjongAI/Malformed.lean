import MahjongAI.Handshake
import MahjongAI.JsonText
import MahjongAI.Packet

/-!
# Malformed Payloads

The decoder takes whatever the server sends. `layout` names the slices that `parse` cuts
out of a text: the announced number of attachments, the id and the JSON text, each where
the delimiters put it. From these alone it can be told whether a payload is survived:
whether `putPayload` returns, the callback that it passes the packet to included. The callback
hands a message packet to the handler `onMessagePacket` of a registered socket, which has to
find a message, and a first element, that it can dereference, and an open frame to
`readHandshake`.

What the JSON text does is told by the grammar of the reader, not by the reader itself.

## Main results

* `survives_iff`: in every reachable state a payload is survived exactly when its slices
  are numbers, its JSON text does not make the reader abort, its placeholders are well
  formed, and the packet that is handed on carries a message that is there.
* `not_survives`: an event without a message is not survived by the socket it is for.
-/

open MahjongAI.Json

namespace MahjongAI

/-! ### The handler of a socket -/

/-- What `on_message_packet` goes on to do. -/
inductive Handling where
  | connected
  | closed
  | event (packId : ℤ) (name : List Char) (args : List Message)
  | ack (packId : ℤ) (args : List Message)
  | error (message : Message)
  | ignored

/-- `message::list::push`, which skips null pointers. -/
def pushMessage (list : List Message) : Message → List Message
  | .nullptr => list
  | m => list ++ [m]

/-- The handling of an event. The name is the first element, whose flag is read. -/
def onEvent (packId : ℤ) : Message → Option Handling
  | .nullptr => none
  | .array (.nullptr :: _) => none
  | .array (.string name :: args) => some (.event packId name (args.foldl pushMessage []))
  | _ => some .ignored

/-- The handling of an ack. -/
def onAck (packId : ℤ) : Message → Option Handling
  | .nullptr => none
  | .array ms => some (.ack packId ms)
  | m => some (.ack packId [m])

/-- `socket::impl::on_message_packet`, for the socket of a namespace. Dereferencing a
null pointer and the assertion of `get_type` are failures. -/
def onMessagePacket (nsp : List Char) (p : Packet) : Option Handling :=
  if p.nsp = nsp then
    if p.type / 16 % 2 = 1 then none
    else if p.type = Packet.typeConnect then some .connected
    else if p.type = Packet.typeDisconnect then some .closed
    else if p.type = Packet.typeEvent ∨ p.type = Packet.typeBinaryEvent then
      onEvent p.packId p.message
    else if p.type = Packet.typeAck ∨ p.type = Packet.typeBinaryAck then onAck p.packId p.message
    else if p.type = Packet.typeError then some (.error p.message)
    else some .ignored
  else some .ignored

/-! ### Values that the tree builder can read -/

namespace Json.Value

/-- A placeholder has a 32-bit number. -/
def Numbered (members : List (List Char × Value)) : Prop :=
  ∃ n, findMember placeholderNum members = some (number n) ∧ -2 ^ 31 ≤ n ∧ n < 2 ^ 31

mutual

/-- Wherever a member is named as the placeholder, it is a boolean, and if true its
object is numbered. -/
def Readable : Value → Prop
  | array vs => ReadableElements vs
  | object ms =>
      match findMember placeholder ms with
      | none => ReadableMembers ms
      | some (bool true) => Numbered ms
      | some (bool false) => ReadableMembers ms
      | some _ => False
  | null | bool _ | number _ | double _ | string _ => True

def ReadableElements : List Value → Prop
  | [] => True
  | v :: vs => v.Readable ∧ ReadableElements vs

def ReadableMembers : List (List Char × Value) → Prop
  | [] => True
  | (_, v) :: vs => v.Readable ∧ ReadableMembers vs

end

/-- The values that stand for a null pointer: integers beyond `int64_t`, and placeholders
of an attachment that is not there. -/
def Dangling (attachments : ℕ) : Value → Prop
  | number n => n < -2 ^ 63 ∨ 2 ^ 63 ≤ n
  | object ms => findMember placeholder ms = some (bool true) ∧
      ∀ n, findMember placeholderNum ms = some (number n) → n < 0 ∨ wrap32 attachments ≤ n
  | _ => False

/-- The values that the handler of a type can take: neither the value nor, in an event,
its first element stands for a null pointer. -/
def Handled (type : ℤ) (attachments : ℕ) (v : Value) : Prop :=
  ¬v.Dangling attachments ∧
    (type = Packet.typeEvent ∨ type = Packet.typeBinaryEvent →
      ∀ w ws, v = array (w :: ws) → ¬w.Dangling attachments)

/-- The value of the last member of a name, which is the one that stays in a map. -/
def lastMember (name : List Char) (members : List (List Char × Value)) : Option Value :=
  findMember name members.reverse

/-- The values that `on_handshake` can take: if an object that is no placeholder has a session
id, the id is a string, and neither the interval nor the timeout stands for a null pointer. -/
def Shakes : Value → Prop
  | object ms => findMember placeholder ms ≠ some (bool true) →
      ∀ sid, lastMember sidName ms = some sid → (∃ s, sid = string s) ∧
        (∀ v, lastMember pingIntervalName ms = some v → ¬v.Dangling 0) ∧
          ∀ v, lastMember pingTimeoutName ms = some v → ¬v.Dangling 0
  | _ => True

end Json.Value

section FromJson

variable (buffers : List Buffer)

theorem fromPlaceholder_isSome_iff (ms : List (List Char × Value)) :
    (fromPlaceholder buffers ms).isSome = true ↔ Value.Numbered ms := by
  rw [fromPlaceholder, Value.Numbered]
  cases hnum : findMember placeholderNum ms with
  | none => simp [bind, Option.bind]
  | some v =>
      cases v with
      | number n =>
          by_cases hn : -2 ^ 31 ≤ n ∧ n < 2 ^ 31
          · simp only [bind, Option.bind, Value.getInt, if_pos hn]
            constructor
            · exact fun _ => ⟨n, rfl, hn⟩
            · intro _
              split <;> rfl
          · simp only [bind, Option.bind, Value.getInt, if_neg hn]
            constructor
            · exact fun h => absurd h (by simp)
            · rintro ⟨n', heq, hn'⟩
              obtain rfl : n = n' := by simpa using heq
              exact absurd hn' hn
      | null | bool _ | double _ | string _ | array _ | object _ =>
          simp [bind, Option.bind, Value.getInt]

mutual

/-- **The tree builder** returns exactly for the readable values. -/
theorem fromJson_isSome_iff : (v : Value) → ((fromJson buffers v).isSome = true ↔ v.Readable)
  | .null | .bool _ | .number _ | .double _ | .string _ => by
      simp [fromJson, Value.Readable]
  | .array vs => by
      rw [fromJson, Value.Readable, Option.isSome_map]
      exact fromElements_isSome_iff vs
  | .object ms => by
      rw [fromJson, Value.Readable]
      have hmembers := fromMembers_isSome_iff ms
      cases findMember placeholder ms with
      | none =>
          simp only [Option.isSome_map]
          exact hmembers []
      | some v =>
          cases v with
          | bool b =>
              cases b with
              | true => exact fromPlaceholder_isSome_iff buffers ms
              | false =>
                  simp only [Value.getBool, Option.isSome_map]
                  exact hmembers []
          | null | number _ | double _ | string _ | array _ | object _ =>
              simp [Value.getBool]

theorem fromElements_isSome_iff : (vs : List Value) →
    ((fromElements buffers vs).isSome = true ↔ Value.ReadableElements vs)
  | [] => by simp [fromElements, Value.ReadableElements]
  | v :: vs => by
      have hv := fromJson_isSome_iff v
      have hvs := fromElements_isSome_iff vs
      rw [fromElements, Value.ReadableElements, ← hv, ← hvs]
      cases fromJson buffers v <;> cases fromElements buffers vs <;> simp [bind, Option.bind]

theorem fromMembers_isSome_iff : (vs : List (List Char × Value)) →
    ∀ map : List (List Char × Message),
      ((fromMembers buffers vs map).isSome = true ↔ Value.ReadableMembers vs)
  | [] => by simp [fromMembers, Value.ReadableMembers]
  | (name, v) :: vs => by
      intro map
      have hv := fromJson_isSome_iff v
      have hvs := fromMembers_isSome_iff vs
      rw [fromMembers, Value.ReadableMembers, ← hv]
      cases fromJson buffers v with
      | none => simp [bind, Option.bind]
      | some m => simpa [bind, Option.bind] using hvs _

end

/-- What a placeholder gives. -/
theorem fromPlaceholder_eq_some {ms : List (List Char × Value)} {m : Message}
    (h : fromPlaceholder buffers ms = some m) :
    ∃ n, findMember placeholderNum ms = some (.number n) ∧
      m = if 0 ≤ n ∧ n < wrap32 buffers.length then .binary (buffers.getD n.toNat [])
        else .nullptr := by
  obtain ⟨n, hnum, hrange⟩ := (fromPlaceholder_isSome_iff buffers ms).mp (by rw [h]; rfl)
  refine ⟨n, hnum, ?_⟩
  rw [fromPlaceholder, hnum] at h
  simp only [bind, Option.bind, Value.getInt, if_pos hrange] at h
  by_cases hn : 0 ≤ n ∧ n < wrap32 buffers.length
  · rw [if_pos hn] at h ⊢
    exact (Option.some.inj h).symm
  · rw [if_neg hn] at h ⊢
    exact (Option.some.inj h).symm

/-- What an object gives: a null pointer or a binary for a placeholder, else an object. -/
theorem fromJson_object {ms : List (List Char × Value)} {m : Message}
    (h : fromJson buffers (.object ms) = some m) :
    (findMember placeholder ms = some (.bool true) ∧ fromPlaceholder buffers ms = some m) ∨
      (findMember placeholder ms ≠ some (.bool true) ∧
        ∃ map, fromMembers buffers ms [] = some map ∧ m = .object map) := by
  rw [fromJson] at h
  split at h
  · rename_i hfind
    obtain ⟨map, hmap, rfl⟩ := Option.map_eq_some_iff.mp h
    exact Or.inr ⟨by rw [hfind]; simp, map, hmap, rfl⟩
  · rename_i v hfind
    cases v with
    | bool b =>
        cases b with
        | true => exact Or.inl ⟨hfind, h⟩
        | false =>
            obtain ⟨map, hmap, rfl⟩ := Option.map_eq_some_iff.mp h
            exact Or.inr ⟨by rw [hfind]; simp, map, hmap, rfl⟩
    | null | number _ | double _ | string _ | array _ | object _ =>
        exact absurd h (by simp [Value.getBool])

/-- A null pointer is built exactly for the dangling values. -/
theorem fromJson_eq_nullptr_iff {v : Value} {m : Message} (h : fromJson buffers v = some m) :
    m = .nullptr ↔ v.Dangling buffers.length := by
  cases v with
  | null | bool _ | double _ | string _ =>
      rw [fromJson] at h
      obtain rfl := Option.some.inj h
      simp [Value.Dangling]
  | number n =>
      rw [fromJson] at h
      obtain rfl := Option.some.inj h
      simp only [Value.isInt64, decide_eq_true_eq, Value.Dangling]
      split <;> simp <;> omega
  | array vs =>
      rw [fromJson] at h
      obtain ⟨ms, -, rfl⟩ := Option.map_eq_some_iff.mp h
      simp [Value.Dangling]
  | object ms =>
      rw [Value.Dangling]
      rcases fromJson_object buffers h with ⟨hfind, hplace⟩ | ⟨hfind, map, -, rfl⟩
      · obtain ⟨n, hnum, rfl⟩ := fromPlaceholder_eq_some buffers hplace
        have hn : ∀ n', findMember placeholderNum ms = some (.number n') ↔ n' = n := by
          intro n'
          rw [hnum]
          simp [eq_comm]
        simp only [hfind, true_and, hn, forall_eq]
        split <;> simp <;> omega
      · simp [hfind]

/-- The messages that the handler of a type can take. -/
def CanHandle (type : ℤ) (m : Message) : Prop :=
  m ≠ .nullptr ∧ (type = Packet.typeEvent ∨ type = Packet.typeBinaryEvent →
    ∀ ms, m ≠ .array (.nullptr :: ms))

theorem canHandle_iff {type : ℤ} {v : Value} {m : Message} (h : fromJson buffers v = some m) :
    CanHandle type m ↔ v.Handled type buffers.length := by
  have hnull := fromJson_eq_nullptr_iff buffers h
  have hfirst : (∃ ms, m = .array (.nullptr :: ms)) ↔
      ∃ w ws, v = .array (w :: ws) ∧ w.Dangling buffers.length := by
    cases v with
    | null | bool _ | double _ | string _ =>
        rw [fromJson] at h
        obtain rfl := Option.some.inj h
        simp
    | number n =>
        rw [fromJson] at h
        obtain rfl := Option.some.inj h
        split <;> simp
    | object ms =>
        rcases fromJson_object buffers h with ⟨-, hplace⟩ | ⟨-, map, -, rfl⟩
        · obtain ⟨n, -, rfl⟩ := fromPlaceholder_eq_some buffers hplace
          split <;> simp
        · simp
    | array vs =>
        rw [fromJson] at h
        obtain ⟨ms, hms, rfl⟩ := Option.map_eq_some_iff.mp h
        cases vs with
        | nil =>
            rw [fromElements] at hms
            obtain rfl := Option.some.inj hms
            simp
        | cons w ws =>
            rw [fromElements] at hms
            obtain ⟨m, hm, hms⟩ := Option.bind_eq_some_iff.mp hms
            obtain ⟨rest, hrest, hms⟩ := Option.bind_eq_some_iff.mp hms
            obtain rfl := Option.some.inj hms
            simp [← fromJson_eq_nullptr_iff buffers hm]
  rw [CanHandle, Value.Handled]
  rw [ne_eq, hnull]
  refine and_congr_right fun _ => imp_congr_right fun _ => ?_
  constructor
  · intro hm w ws hv hw
    obtain ⟨ms, rfl⟩ := hfirst.mpr ⟨w, ws, hv, hw⟩
    exact hm ms rfl
  · intro hv ms hm
    obtain ⟨w, ws, rfl, hw⟩ := hfirst.mp ⟨ms, hm⟩
    exact hv w ws rfl hw

/-! ### Handshakes -/

theorem lookup_cons_eq (name key : List Char) (m : Message)
    (map : List (List Char × Message)) :
    List.lookup name ((key, m) :: map) = if name = key then some m else map.lookup name := by
  by_cases h : name = key
  · subst h
    simp
  · rw [List.lookup_cons, beq_false_of_ne h, if_neg h]

theorem lookup_mapInsert (name key : List Char) (m : Message)
    (map : List (List Char × Message)) :
    (mapInsert key m map).lookup name = if name = key then some m else map.lookup name := by
  induction map with
  | nil => exact lookup_cons_eq name key m []
  | cons entry map ih =>
      obtain ⟨key', m'⟩ := entry
      rw [mapInsert]
      split
      · rename_i hkey
        subst hkey
        rw [lookup_cons_eq, lookup_cons_eq]
        by_cases h : name = key <;> simp [h]
      · split
        · rw [lookup_cons_eq]
        · rename_i hkey _
          rw [lookup_cons_eq, lookup_cons_eq, ih]
          by_cases h : name = key
          · rw [if_pos h, if_neg (h ▸ hkey), if_pos h]
          · rw [if_neg h, if_neg h]

theorem lastMember_cons (name : List Char) (n : List Char) (v : Value)
    (ms : List (List Char × Value)) :
    Value.lastMember name ((n, v) :: ms) =
      (Value.lastMember name ms).or (if n = name then some v else none) := by
  rw [Value.lastMember, Value.lastMember, findMember, findMember, List.reverse_cons,
    List.find?_append]
  cases ms.reverse.find? fun m => decide (m.1 = name) with
  | some m => rfl
  | none => by_cases h : n = name <;> simp [h]

/-- The last member of a name stays in the map, and what was there before only where there is
none. -/
theorem lookup_fromMembers {ms : List (List Char × Value)}
    {map map' : List (List Char × Message)} (h : fromMembers buffers ms map = some map')
    (name : List Char) :
    (Value.lastMember name ms = none → map'.lookup name = map.lookup name) ∧
      ∀ v, Value.lastMember name ms = some v →
        ∃ m, fromJson buffers v = some m ∧ map'.lookup name = some m := by
  induction ms generalizing map with
  | nil =>
      rw [fromMembers] at h
      obtain rfl := Option.some.inj h
      exact ⟨fun _ => rfl, fun v hv => absurd hv (by simp [Value.lastMember, findMember])⟩
  | cons member ms ih =>
      obtain ⟨n, v⟩ := member
      rw [fromMembers] at h
      obtain ⟨m, hm, hms⟩ := Option.bind_eq_some_iff.mp h
      obtain ⟨hnone, hsome⟩ := ih hms
      rw [lastMember_cons]
      cases hlast : Value.lastMember name ms with
      | some w =>
          obtain ⟨m', hm', hlookup⟩ := hsome w hlast
          refine ⟨fun hw => absurd hw (by simp), fun w' hw => ?_⟩
          obtain rfl : w = w' := Option.some.inj hw
          exact ⟨m', hm', hlookup⟩
      | none =>
          have hlookup := hnone hlast
          rw [lookup_mapInsert] at hlookup
          rw [Option.none_or]
          by_cases hn : n = name
          · rw [if_pos hn, hlookup, if_pos hn.symm]
            refine ⟨fun hv => absurd hv (by simp), fun w hw => ?_⟩
            obtain rfl : v = w := Option.some.inj hw
            exact ⟨m, hm, rfl⟩
          · rw [if_neg hn, hlookup, if_neg (Ne.symm hn)]
            exact ⟨fun _ => rfl, fun w hw => absurd hw (by simp)⟩

theorem fromJson_eq_string {v : Value} {m : Message} (h : fromJson buffers v = some m) :
    (∃ s, m = .string s) ↔ ∃ s, v = .string s := by
  cases v with
  | null | bool _ | double _ | string _ =>
      rw [fromJson] at h
      obtain rfl := Option.some.inj h
      simp
  | number n =>
      rw [fromJson] at h
      obtain rfl := Option.some.inj h
      split <;> simp
  | array vs =>
      rw [fromJson] at h
      obtain ⟨ms, -, rfl⟩ := Option.map_eq_some_iff.mp h
      simp
  | object ms =>
      rcases fromJson_object buffers h with ⟨-, hplace⟩ | ⟨-, map, -, rfl⟩
      · obtain ⟨n, -, rfl⟩ := fromPlaceholder_eq_some buffers hplace
        split <;> simp
      · simp

/-- A member that is there is no null pointer exactly when its value does not dangle. -/
theorem lookup_ne_nullptr_iff {ms : List (List Char × Value)}
    {map : List (List Char × Message)} (h : fromMembers buffers ms [] = some map)
    (name : List Char) :
    map.lookup name ≠ some .nullptr ↔
      ∀ v, Value.lastMember name ms = some v → ¬v.Dangling buffers.length := by
  obtain ⟨hnone, hsome⟩ := lookup_fromMembers buffers h name
  cases hlast : Value.lastMember name ms with
  | none => simp [hnone hlast]
  | some v =>
      obtain ⟨m, hm, hlookup⟩ := hsome v hlast
      simp [hlookup, ← fromJson_eq_nullptr_iff buffers hm]

/-- A handshake can be read exactly when its value says so. -/
theorem canShake_iff {v : Value} {m : Message} (h : fromJson [] v = some m) :
    CanShake m ↔ v.Shakes := by
  cases v with
  | null | bool _ | double _ | string _ =>
      rw [fromJson] at h
      obtain rfl := Option.some.inj h
      simp [CanShake, Value.Shakes]
  | number n =>
      rw [fromJson] at h
      obtain rfl := Option.some.inj h
      split <;> simp [CanShake, Value.Shakes]
  | array vs =>
      rw [fromJson] at h
      obtain ⟨ms, -, rfl⟩ := Option.map_eq_some_iff.mp h
      simp [CanShake, Value.Shakes]
  | object ms =>
      rw [Value.Shakes]
      rcases fromJson_object [] h with ⟨hfind, hplace⟩ | ⟨hfind, map, hmap, rfl⟩
      · obtain ⟨n, -, rfl⟩ := fromPlaceholder_eq_some [] hplace
        split <;> simp [CanShake, hfind]
      · obtain ⟨hnone, hsome⟩ := lookup_fromMembers [] hmap sidName
        have hinterval := lookup_ne_nullptr_iff [] hmap pingIntervalName
        have htimeout := lookup_ne_nullptr_iff [] hmap pingTimeoutName
        simp only [CanShake, Message.object.injEq, forall_eq', hfind, ne_eq, not_false_eq_true,
          forall_const]
        cases hlast : Value.lastMember sidName ms with
        | none => simp [hnone hlast]
        | some v =>
            obtain ⟨m, hm, hlookup⟩ := hsome v hlast
            simp only [hlookup, Option.some.injEq, forall_eq', fromJson_eq_string [] hm,
              hinterval, htimeout, List.length_nil]

end FromJson

/-! ### The slices of a text -/

/-- The slices that a text is cut into: the count of attachments of a binary type, and,
where there is a JSON text, the id in front of it if it is not empty. -/
structure Layout where
  frame : ℤ
  type : ℤ
  nsp : List Char
  count : Option (List Char)
  packId : Option (List Char)
  json : Option (List Char)

/-- The id between `pos` and `json`, and the JSON text. -/
def Layout.withMessage (l : Layout) (payload : List Char) (pos json : ℕ) : Layout :=
  { l with
    packId := if pos < json then some (slice payload pos (some json)) else none
    json := some (payload.drop json) }

/-- The namespace, found from `pos` on, and what comes after it. -/
def Layout.withBody (l : Layout) (payload : List Char) (pos : ℕ) : Layout :=
  match findFirstOf ['{', '[', '"', '/'] pos payload with
  | none => { l with nsp := ['/'] }
  | some nspJson =>
      if payload.getD nspJson '\x00' = '/' then
        match findFirstOf [','] 0 payload with
        | none => { l with nsp := payload.drop nspJson }
        | some comma =>
            match findFirstOf ['"', '[', '{'] (comma + 1) payload with
            | none => { l with nsp := slice payload nspJson (some comma) }
            | some json =>
                { l with nsp := slice payload nspJson (some comma) }.withMessage payload
                  (comma + 1) json
      else { l with nsp := ['/'] }.withMessage payload pos nspJson

/-- The slices of a text payload or an engine frame. -/
def layout (payload : List Char) : Layout :=
  let frame := charValue (payload.getD 0 '\x00') - '0'.toNat
  let type := charValue (payload.getD 1 '\x00') - '0'.toNat
  if frame = Packet.frameMessage then
    if type < Packet.typeConnect ∨ Packet.typeBinaryAck < type then
      ⟨frame, type, [], none, none, none⟩
    else if Packet.isBinaryType type then
      let score := findFirstOf ['-'] 0 payload
      Layout.withBody ⟨frame, type, [], some (slice payload 2 score), none, none⟩ payload
        ((score.map (· + 1)).getD 0)
    else Layout.withBody ⟨frame, type, [], none, none, none⟩ payload 2
  else Layout.withBody ⟨frame, Packet.typeUndetermined, [], none, none, none⟩ payload 1

/-- A packet of a message type for a registered socket. -/
def Addressed (registered : List Char → Prop) (frame type : ℤ) (nsp : List Char) : Prop :=
  frame = Packet.frameMessage ∧ (type = Packet.typeEvent ∨ type = Packet.typeBinaryEvent ∨
    type = Packet.typeAck ∨ type = Packet.typeBinaryAck) ∧ registered nsp

/-- The JSON text does not make the reader abort, and if it denotes a value, the value can be
read, it can be handled where the packet is addressed to a socket, and it is a handshake that
can be read where the packet opens the connection. -/
structure JsonOk (addressed opens : Prop) (type : ℤ) (buffers : List Buffer)
    (json : List Char) : Prop where
  noAbort : ¬JsonAborts json
  readable : ∀ v, JsonText json v → v.Readable
  handled : addressed → ∀ v, JsonText json v → v.Handled type buffers.length
  shakes : opens → ∀ v, JsonText json v → v.Shakes

section Registered

variable (registered : List Char → Prop)

/-- A text that is survived. -/
structure TextOk [LexicalCast] (l : Layout) : Prop where
  count : ∀ s ∈ l.count, (lexicalCastUnsigned s).isSome = true
  packId : ∀ s ∈ l.packId, (lexicalCastInt s).isSome = true
  json : l.count = none → ∀ s ∈ l.json,
    JsonOk (Addressed registered l.frame l.type l.nsp) (l.frame = Packet.frameOpen) l.type [] s
  missing : l.json = none → ¬Addressed registered l.frame l.type l.nsp

/-- A binary payload that is survived when `w` awaits attachments: the last one brings
the JSON text, and a packet that announced none has no message. -/
structure BufferOk (w : Packet) (payload : List Char) : Prop where
  zero : w.pendingBuffers = 0 → ¬registered w.nsp
  last : w.pendingBuffers = 1 → ∀ json rest, w.buffers ++ [payload.tail] = json :: rest →
    JsonOk (registered w.nsp) False w.type rest json

/-- **The condition** on a payload in a state of the manager. -/
def Acceptable [LexicalCast] (m : PacketManager) (payload : List Char) : Prop :=
  if isBinaryMessage payload then ∀ w ∈ m.partialPacket, BufferOk registered w payload
  else TextOk registered (layout payload)

/-- The callback `on_decode` returns: an event or an ack can be handled by the socket that it
is for, and the message of an open frame can be read as a handshake. -/
structure Decodes (p : Packet) : Prop where
  message : Addressed registered p.frame p.type p.nsp → (onMessagePacket p.nsp p).isSome = true
  handshake : p.frame = Packet.frameOpen → (readHandshake p.message).isSome = true

/-- **Surviving** a payload: `putPayload` returns, the callback included. -/
def Survives [LexicalCast] (m : PacketManager) (payload : List Char) : Prop :=
  ∃ m' out, m.putPayload payload = some (m', out) ∧ ∀ p ∈ out, Decodes registered p

end Registered

/-- The states of a manager between payloads; a payload that throws changes nothing. -/
inductive Reachable [LexicalCast] : PacketManager → Prop
  | fresh : Reachable PacketManager.fresh
  | putPayload {m m' : PacketManager} {payload : List Char} {out : Option Packet} :
      Reachable m → m.putPayload payload = some (m', out) → Reachable m'

/-! ### Reading and handling -/

theorem onEvent_isSome_iff (packId : ℤ) (m : Message) :
    (onEvent packId m).isSome = true ↔ m ≠ .nullptr ∧ ∀ ms, m ≠ .array (.nullptr :: ms) := by
  cases m with
  | array ms =>
      cases ms with
      | nil => simp [onEvent]
      | cons m ms => cases m <;> simp [onEvent]
  | nullptr | int _ | double _ | string _ | binary _ | object _ | bool _ | null => simp [onEvent]

theorem onAck_isSome_iff (packId : ℤ) (m : Message) :
    (onAck packId m).isSome = true ↔ m ≠ .nullptr := by
  cases m <;> simp [onAck]

theorem onMessagePacket_isSome_iff {registered : List Char → Prop} {p : Packet}
    (h : Addressed registered p.frame p.type p.nsp) :
    (onMessagePacket p.nsp p).isSome = true ↔ CanHandle p.type p.message := by
  obtain ⟨-, htype, -⟩ := h
  rw [onMessagePacket, CanHandle]
  rw [if_pos rfl]
  rcases htype with htype | htype | htype | htype <;> rw [htype]
  · exact (onEvent_isSome_iff _ _).trans (by simp)
  · exact (onEvent_isSome_iff _ _).trans (by simp)
  · exact (onAck_isSome_iff _ _).trans (by simp [Packet.typeAck, Packet.typeEvent,
      Packet.typeBinaryEvent])
  · exact (onAck_isSome_iff _ _).trans (by simp [Packet.typeBinaryAck, Packet.typeEvent,
      Packet.typeBinaryEvent])

/-- A message that `on_decode` can pass on. -/
def CanDecode (registered : List Char → Prop) (p : Packet) : Prop :=
  (Addressed registered p.frame p.type p.nsp → CanHandle p.type p.message) ∧
    (p.frame = Packet.frameOpen → CanShake p.message)

theorem decodes_iff {registered : List Char → Prop} (p : Packet) :
    Decodes registered p ↔ CanDecode registered p := by
  constructor
  · intro h
    exact ⟨fun ha => (onMessagePacket_isSome_iff ha).mp (h.message ha),
      fun hopen => (readHandshake_isSome_iff _).mp (h.handshake hopen)⟩
  · intro h
    exact ⟨fun ha => (onMessagePacket_isSome_iff ha).mpr (h.1 ha),
      fun hopen => (readHandshake_isSome_iff _).mpr (h.2 hopen)⟩

/-- What the condition on a JSON text says of its document. -/
theorem jsonOk_of_document {addressed opens : Prop} {type : ℤ} {buffers : List Buffer}
    {json : List Char} {v : Value} (h : document json = some v) (hread : v.Readable)
    (hhandled : addressed → v.Handled type buffers.length) (hshakes : opens → v.Shakes) :
    JsonOk addressed opens type buffers json where
  noAbort haborts := absurd ((document_of_aborts haborts).symm.trans h) (by simp)
  readable w hw := by
    obtain rfl := Option.some.inj ((document_of_jsonText hw).symm.trans h)
    exact hread
  handled ha w hw := by
    obtain rfl := Option.some.inj ((document_of_jsonText hw).symm.trans h)
    exact hhandled ha
  shakes ho w hw := by
    obtain rfl := Option.some.inj ((document_of_jsonText hw).symm.trans h)
    exact hshakes ho

/-- The document of a text that is fine: its value, or null. -/
theorem JsonOk.exists_document {addressed opens : Prop} {type : ℤ} {buffers : List Buffer}
    {json : List Char} (h : JsonOk addressed opens type buffers json) :
    ∃ v, document json = some v ∧ v.Readable ∧
      (addressed → v.Handled type buffers.length) ∧ (opens → v.Shakes) := by
  rcases document_cases json with ⟨v, hv⟩ | haborts | hnull
  · exact ⟨v, document_of_jsonText hv, h.readable v hv, fun ha => h.handled ha v hv,
      fun ho => h.shakes ho v hv⟩
  · exact absurd haborts h.noAbort
  · exact ⟨.null, hnull, by simp [Value.Readable],
      fun _ => by simp [Value.Handled, Value.Dangling], fun _ => by simp [Value.Shakes]⟩

theorem jsonOk_iff (addressed opens : Prop) (type : ℤ) (buffers : List Buffer)
    (hbuffers : opens → buffers = []) (json : List Char) :
    JsonOk addressed opens type buffers json ↔
      ∃ m, Packet.readMessage buffers json = some m ∧ (addressed → CanHandle type m) ∧
        (opens → CanShake m) := by
  rw [Packet.readMessage]
  constructor
  · intro h
    obtain ⟨v, hv, hread, hhandled, hshakes⟩ := h.exists_document
    obtain ⟨m, hm⟩ := Option.isSome_iff_exists.mp ((fromJson_isSome_iff buffers v).mpr hread)
    refine ⟨m, by rw [hv]; exact hm, fun ha => (canHandle_iff buffers hm).mpr (hhandled ha),
      fun ho => ?_⟩
    obtain rfl := hbuffers ho
    exact (canShake_iff hm).mpr (hshakes ho)
  · rintro ⟨m, hread, hcan, hshake⟩
    obtain ⟨v, hv, hm⟩ := Option.bind_eq_some_iff.mp hread
    refine jsonOk_of_document hv ((fromJson_isSome_iff buffers v).mp (by rw [hm]; rfl))
      (fun ha => (canHandle_iff buffers hm).mp (hcan ha)) fun ho => ?_
    obtain rfl := hbuffers ho
    exact (canShake_iff hm).mp (hshake ho)

/-! ### Parsing by slices -/

namespace Packet

/-- The packet of a layout, before its message is read. -/
def ofLayout (l : Layout) (pending : ℕ) (packId : ℤ) : Packet where
  frame := l.frame
  type := l.type
  nsp := l.nsp
  packId := packId
  message := .nullptr
  pendingBuffers := pending
  buffers := []

/-- Reading the slices of a layout. -/
def read [LexicalCast] (l : Layout) (pending : ℕ) : Option (Packet × Bool) :=
  (l.packId.elim (some (-1)) lexicalCastInt).bind fun packId =>
    match l.json with
    | none => some (ofLayout l pending packId, false)
    | some json =>
        if l.count.isSome then
          some ({ ofLayout l pending packId with buffers := [json] }, true)
        else (readMessage [] json).map fun message =>
          ({ ofLayout l pending packId with message := message }, false)

theorem parseMessage_eq_read [LexicalCast] {l : Layout} (hcount : l.count.isSome = true ↔
    l.frame = frameMessage ∧ isBinaryType l.type = true) (payload : List Char) (pos json : ℕ)
    (pending : ℕ) :
    parseMessage (ofLayout l pending (-1)) payload pos json =
      read (l.withMessage payload pos json) pending := by
  have hid : parseId payload pos json =
      (if pos < json then some (slice payload pos (some json)) else none).elim (some (-1))
        lexicalCastInt := by
    rw [parseId]
    split <;> rfl
  rw [parseMessage, read]
  rw [hid]
  simp only [Layout.withMessage, hcount]
  rfl

theorem parseBody_eq_read [LexicalCast] {l : Layout} (hcount : l.count.isSome = true ↔
    l.frame = frameMessage ∧ isBinaryType l.type = true) (hid : l.packId = none)
    (hjson : l.json = none) (payload : List Char) (pos pending : ℕ) :
    parseBody (ofLayout l pending (-1)) payload pos = read (l.withBody payload pos) pending := by
  have hnsp : ∀ nsp, read { l with nsp := nsp } pending =
      some ({ ofLayout l pending (-1) with nsp := nsp }, false) := by
    intro nsp
    simp only [read, hid, hjson, Option.elim, Option.bind_some]
    rfl
  have hmessage : ∀ nsp pos json,
      parseMessage { ofLayout l pending (-1) with nsp := nsp } payload pos json =
        read ({ l with nsp := nsp }.withMessage payload pos json) pending := by
    intro nsp pos json
    exact parseMessage_eq_read (l := { l with nsp := nsp }) hcount payload pos json pending
  rw [parseBody, Layout.withBody]
  cases findFirstOf ['{', '[', '"', '/'] pos payload with
  | none => exact (hnsp _).symm
  | some nspJson =>
      by_cases hslash : payload.getD nspJson '\x00' = '/'
      · simp only [if_pos hslash]
        cases findFirstOf [','] 0 payload with
        | none => exact (hnsp _).symm
        | some comma =>
            simp only
            cases findFirstOf ['"', '[', '{'] (comma + 1) payload with
            | none => exact (hnsp _).symm
            | some json => exact hmessage _ _ _
      · simp only [if_neg hslash]
        exact hmessage _ _ _

theorem withBody_fields (l : Layout) (payload : List Char) (pos : ℕ) :
    (l.withBody payload pos).frame = l.frame ∧ (l.withBody payload pos).type = l.type ∧
      (l.withBody payload pos).count = l.count := by
  rw [Layout.withBody]
  split
  · exact ⟨rfl, rfl, rfl⟩
  · split
    · split
      · exact ⟨rfl, rfl, rfl⟩
      · split <;> exact ⟨rfl, rfl, rfl⟩
    · exact ⟨rfl, rfl, rfl⟩

/-- A count is looked for in the packets of a binary type. -/
theorem layout_count (payload : List Char) :
    (layout payload).count.isSome = true ↔
      (layout payload).frame = frameMessage ∧ isBinaryType (layout payload).type = true := by
  rw [layout]
  generalize charValue (payload.getD 0 '\x00') - ('0'.toNat : ℤ) = frame
  generalize charValue (payload.getD 1 '\x00') - ('0'.toNat : ℤ) = type
  simp only
  split
  · rename_i hframe
    split
    · rename_i htype
      have hnot : ¬(isBinaryType type = true) := by
        intro hbinary
        have hvalue : type = 5 ∨ type = 6 := of_decide_eq_true hbinary
        have hrange : type < 0 ∨ 6 < type := htype
        omega
      simp only [hnot, and_false, Option.isSome_none, Bool.false_eq_true]
    · split
      · rename_i hbinary
        obtain ⟨h1, h2, h3⟩ := withBody_fields ⟨frame, type, [], some (slice payload 2
          (findFirstOf ['-'] 0 payload)), none, none⟩ payload
          (((findFirstOf ['-'] 0 payload).map (· + 1)).getD 0)
        rw [h1, h2, h3]
        simp [hframe, hbinary]
      · rename_i hbinary
        obtain ⟨h1, h2, h3⟩ := withBody_fields ⟨frame, type, [], none, none, none⟩ payload 2
        rw [h1, h2, h3]
        simp [hbinary]
  · rename_i hframe
    obtain ⟨h1, h2, h3⟩ := withBody_fields ⟨frame, typeUndetermined, [], none, none, none⟩
      payload 1
    rw [h1, h2, h3]
    simp [hframe]

/-- **Parsing** is reading the slices of the layout, the count first. -/
theorem parse_eq_read [LexicalCast] (payload : List Char) :
    parse payload = ((layout payload).count.elim (some 0) lexicalCastUnsigned).bind
      (read (layout payload)) := by
  rw [parse, layout]
  generalize charValue (payload.getD 0 '\x00') - ('0'.toNat : ℤ) = frame
  generalize charValue (payload.getD 1 '\x00') - ('0'.toNat : ℤ) = type
  simp only
  split
  · split
    · rfl
    · split
      · rename_i hframe _ hbinary
        rw [(withBody_fields _ _ _).2.2]
        refine Option.bind_congr fun pending _ => ?_
        exact parseBody_eq_read (l := ⟨_, _, [], some _, none, none⟩)
          ⟨fun _ => ⟨hframe, hbinary⟩, fun _ => rfl⟩ rfl rfl payload _ pending
      · rename_i hframe _ hbinary
        rw [(withBody_fields _ _ _).2.2]
        exact parseBody_eq_read (l := ⟨_, _, [], none, none, none⟩) (by simp [hbinary])
          rfl rfl payload _ 0
  · rename_i hframe
    rw [(withBody_fields _ _ _).2.2]
    exact parseBody_eq_read (l := ⟨_, _, [], none, none, none⟩) (by simp [hframe])
      rfl rfl payload _ 0

end Packet

/-! ### The condition is exact -/

/-- A packet that is held back: of a binary type, without a message, its JSON text first. -/
structure Held (w : Packet) : Prop where
  frame : w.frame = Packet.frameMessage
  type : w.type = Packet.typeBinaryEvent ∨ w.type = Packet.typeBinaryAck
  message : w.message = .nullptr
  buffers : w.buffers ≠ []

/-- What `parse` holds back. -/
theorem held_of_parse [LexicalCast] {payload : List Char} {w : Packet}
    (h : Packet.parse payload = some (w, true)) : Held w := by
  have hcount := Packet.layout_count payload
  rw [Packet.parse_eq_read] at h
  obtain ⟨pending, -, h⟩ := Option.bind_eq_some_iff.mp h
  obtain ⟨packId, -, h⟩ := Option.bind_eq_some_iff.mp h
  split at h
  · exact absurd h (by simp)
  · split at h
    · rename_i hsome
      obtain ⟨hframe, hbinary⟩ := hcount.mp hsome
      obtain ⟨rfl, -⟩ := Prod.mk.inj (Option.some.inj h)
      exact ⟨hframe, of_decide_eq_true hbinary, rfl, List.cons_ne_nil _ _⟩
    · obtain ⟨m, -, h⟩ := Option.map_eq_some_iff.mp h
      exact absurd (Prod.mk.inj h).2 (by simp)

/-- What `parseBuffer` goes on holding back. -/
theorem held_of_parseBuffer {w w' : Packet} {payload : List Char} (hw : Held w)
    (h : w.parseBuffer payload = some (w', true)) : Held w' := by
  rw [Packet.parseBuffer] at h
  split at h
  · simp only at h
    split at h
    · split at h
      · exact absurd h (by simp)
      · obtain ⟨m, -, h⟩ := Option.map_eq_some_iff.mp h
        exact absurd (Prod.mk.inj h).2 (by simp)
    · obtain ⟨rfl, -⟩ := Prod.mk.inj (Option.some.inj h)
      exact ⟨hw.frame, hw.type, hw.message, by simp⟩
  · exact absurd (Prod.mk.inj (Option.some.inj h)).2 (by simp)

/-- **The invariant**: whatever a reachable manager holds is held back by `parse`. -/
theorem held_of_reachable [LexicalCast] {m : PacketManager} (h : Reachable m) :
    ∀ w ∈ m.partialPacket, Held w := by
  induction h with
  | fresh => exact fun w hw => absurd hw (by simp [PacketManager.fresh])
  | @putPayload m m' payload out _ hput ih =>
      intro w hw
      rw [PacketManager.putPayload] at hput
      split at hput
      · obtain ⟨⟨p, awaits⟩, hparse, hput⟩ := Option.map_eq_some_iff.mp hput
        cases awaits with
        | true =>
            obtain ⟨rfl, -⟩ := Prod.mk.inj hput
            obtain rfl := Option.some.inj hw
            exact held_of_parse hparse
        | false =>
            obtain ⟨rfl, -⟩ := Prod.mk.inj hput
            exact ih w hw
      · split at hput
        · split at hput
          · obtain ⟨rfl, -⟩ := Prod.mk.inj (Option.some.inj hput)
            exact ih w hw
          · rename_i v hv
            obtain ⟨⟨p, awaits⟩, hparse, hput⟩ := Option.map_eq_some_iff.mp hput
            cases awaits with
            | true =>
                obtain ⟨rfl, -⟩ := Prod.mk.inj hput
                obtain rfl := Option.some.inj hw
                exact held_of_parseBuffer (ih v hv) hparse
            | false =>
                obtain ⟨rfl, -⟩ := Prod.mk.inj hput
                exact absurd hw (by simp)
        · obtain ⟨⟨p, awaits⟩, -, hput⟩ := Option.map_eq_some_iff.mp hput
          obtain ⟨rfl, -⟩ := Prod.mk.inj hput
          exact ih w hw

section Registered

variable {registered : List Char → Prop}

/-- **Texts.** -/
theorem parse_survives_iff [LexicalCast] (payload : List Char) :
    (∃ p awaits, Packet.parse payload = some (p, awaits) ∧
      (awaits = false → CanDecode registered p)) ↔
      TextOk registered (layout payload) := by
  have hnull : ∀ type, ¬CanHandle type .nullptr := fun type h => h.1 rfl
  have hshake : CanShake .nullptr := fun values h => absurd h (by simp)
  rw [Packet.parse_eq_read]
  generalize layout payload = l
  have hcount : (l.count.elim (some 0) lexicalCastUnsigned).isSome = true ↔
      ∀ s ∈ l.count, (lexicalCastUnsigned s).isSome = true := by
    cases l.count <;> simp
  have hpackId : (l.packId.elim (some (-1)) lexicalCastInt).isSome = true ↔
      ∀ s ∈ l.packId, (lexicalCastInt s).isSome = true := by
    cases l.packId <;> simp
  unfold Packet.read
  cases hpending : l.count.elim (some 0) lexicalCastUnsigned with
  | none =>
      have hbad : ¬∀ s ∈ l.count, (lexicalCastUnsigned s).isSome = true := by
        rw [← hcount, hpending]
        simp
      exact ⟨fun ⟨p, awaits, h, _⟩ => absurd h (by simp), fun h => absurd h.count hbad⟩
  | some pending =>
      have hcount := hcount.mp (by rw [hpending]; rfl)
      cases hid : l.packId.elim (some (-1)) lexicalCastInt with
      | none =>
          have hbad : ¬∀ s ∈ l.packId, (lexicalCastInt s).isSome = true := by
            rw [← hpackId, hid]
            simp
          exact ⟨fun ⟨p, awaits, h, _⟩ => absurd h (by simp), fun h => absurd h.packId hbad⟩
      | some packId =>
          have hpackId := hpackId.mp (by rw [hid]; rfl)
          simp only [Option.bind_some]
          cases hjson : l.json with
          | none =>
              simp only [Option.some.injEq, Prod.mk.injEq]
              constructor
              · rintro ⟨p, awaits, ⟨rfl, rfl⟩, hcan⟩
                exact ⟨hcount, hpackId, fun _ s hs => absurd hs (by simp [hjson]),
                  fun _ haddressed => hnull _ ((hcan rfl).1 haddressed)⟩
              · exact fun h => ⟨_, _, ⟨rfl, rfl⟩, fun _ =>
                  ⟨fun haddressed => absurd haddressed (h.missing hjson), fun _ => hshake⟩⟩
          | some json =>
              cases hsome : l.count with
              | some s =>
                  simp only [Option.isSome_some, if_true, Option.some.injEq, Prod.mk.injEq]
                  exact ⟨fun _ => ⟨hcount, hpackId, fun h => absurd h (by simp [hsome]),
                    fun h => absurd h (by simp [hjson])⟩,
                    fun _ => ⟨_, _, ⟨rfl, rfl⟩, fun h => absurd h (by simp)⟩⟩
              | none =>
                  have hiff := jsonOk_iff (Addressed registered l.frame l.type l.nsp)
                    (l.frame = Packet.frameOpen) l.type [] (fun _ => rfl) json
                  simp only [Option.isSome_none, Bool.false_eq_true, if_false,
                    Option.map_eq_some_iff, Prod.mk.injEq]
                  constructor
                  · rintro ⟨p, awaits, ⟨m, hread, rfl, rfl⟩, hcan⟩
                    refine ⟨hcount, hpackId, fun _ s hs => ?_, fun h => absurd h (by simp [hjson])⟩
                    obtain rfl : json = s := Option.some.inj (hjson.symm.trans hs)
                    exact hiff.mpr ⟨m, hread, hcan rfl⟩
                  · intro h
                    obtain ⟨m, hread, hcan⟩ := hiff.mp (h.json hsome json hjson)
                    exact ⟨_, _, ⟨m, hread, rfl, rfl⟩, fun _ => hcan⟩

/-- **Attachments.** -/
theorem parseBuffer_survives_iff {w : Packet} (hw : Held w) (payload : List Char) :
    (∃ p awaits, w.parseBuffer payload = some (p, awaits) ∧
      (awaits = false → CanDecode registered p)) ↔
      BufferOk registered w payload := by
  have haddressed : Addressed registered w.frame w.type w.nsp ↔ registered w.nsp := by
    refine ⟨fun h => h.2.2, fun h => ⟨hw.frame, ?_, h⟩⟩
    rcases hw.type with htype | htype
    · exact Or.inr (Or.inl htype)
    · exact Or.inr (Or.inr (Or.inr htype))
  have hnotOpen : w.frame ≠ Packet.frameOpen := by
    rw [hw.frame]
    decide
  rw [Packet.parseBuffer]
  by_cases hzero : w.pendingBuffers = 0
  · rw [if_neg (by omega)]
    simp only [Option.some.injEq, Prod.mk.injEq]
    constructor
    · rintro ⟨p, awaits, ⟨rfl, rfl⟩, hcan⟩
      refine ⟨fun _ hreg => ?_, fun h => absurd h (by omega)⟩
      exact ((hcan rfl).1 (haddressed.mpr hreg)).1 hw.message
    · exact fun h => ⟨_, _, ⟨rfl, rfl⟩, fun _ =>
        ⟨fun ha => absurd (haddressed.mp ha) (h.zero hzero), fun hopen => absurd hopen hnotOpen⟩⟩
  · rw [if_pos (by omega)]
    simp only
    by_cases hone : w.pendingBuffers = 1
    · rw [if_pos hone]
      cases hbuffers : w.buffers ++ [payload.tail] with
      | nil => exact absurd hbuffers (by simp)
      | cons json rest =>
          have hiff := jsonOk_iff (registered w.nsp) False w.type rest
            (fun h => h.elim) json
          simp only [Option.map_eq_some_iff, Prod.mk.injEq]
          constructor
          · rintro ⟨p, awaits, ⟨m, hread, rfl, rfl⟩, hcan⟩
            refine ⟨fun h => absurd h hzero, fun _ json' rest' heq => ?_⟩
            obtain ⟨rfl, rfl⟩ := List.cons.inj (hbuffers.symm.trans heq)
            exact hiff.mpr ⟨m, hread, fun hreg => (hcan rfl).1 (haddressed.mpr hreg),
              fun h => h.elim⟩
          · intro h
            obtain ⟨m, hread, hcan, -⟩ := hiff.mp (h.last hone json rest hbuffers)
            exact ⟨_, _, ⟨m, hread, rfl, rfl⟩, fun _ =>
              ⟨fun ha => hcan (haddressed.mp ha), fun hopen => absurd hopen hnotOpen⟩⟩
    · rw [if_neg hone]
      simp only [Option.some.injEq, Prod.mk.injEq]
      exact ⟨fun _ => ⟨fun h => absurd h hzero, fun h => absurd h hone⟩,
        fun _ => ⟨_, _, ⟨rfl, rfl⟩, fun h => absurd h (by simp)⟩⟩

theorem charValue_eq_iff (c : Char) : charValue c - '0'.toNat = Packet.frameMessage ↔ c = '4' := by
  constructor
  · intro h
    have hvalue : charValue c = 52 := by
      have : charValue c - 48 = 4 := h
      omega
    have hnat : c.toNat = 52 := by
      rw [charValue] at hvalue
      split at hvalue <;> omega
    rw [← Char.ofNat_toNat c, hnat]
  · rintro rfl
    decide

/-- What is no text is no message packet. -/
theorem frame_of_parse [LexicalCast] {payload : List Char} {p : Packet} {awaits : Bool}
    (htext : isTextMessage payload = false) (h : Packet.parse payload = some (p, awaits)) :
    p.frame ≠ Packet.frameMessage := by
  have hframe : (layout payload).frame ≠ Packet.frameMessage := by
    have hfirst : charValue (payload.getD 0 '\x00') - '0'.toNat ≠ Packet.frameMessage := by
      rw [ne_eq, charValue_eq_iff]
      cases payload with
      | nil => decide
      | cons c rest =>
          rintro rfl
          exact absurd htext (by simp [isTextMessage])
    rw [layout]
    simp only [if_neg hfirst]
    rw [(Packet.withBody_fields _ _ _).1]
    exact hfirst
  rw [Packet.parse_eq_read] at h
  obtain ⟨pending, -, h⟩ := Option.bind_eq_some_iff.mp h
  obtain ⟨packId, -, h⟩ := Option.bind_eq_some_iff.mp h
  split at h
  · obtain ⟨rfl, -⟩ := Prod.mk.inj (Option.some.inj h)
    exact hframe
  · split at h
    · obtain ⟨rfl, -⟩ := Prod.mk.inj (Option.some.inj h)
      exact hframe
    · obtain ⟨m, -, h⟩ := Option.map_eq_some_iff.mp h
      obtain ⟨rfl, -⟩ := Prod.mk.inj h
      exact hframe

/-- **Survival.** In every reachable state, a payload is survived exactly when its slices
are acceptable. -/
theorem survives_iff [LexicalCast] {m : PacketManager} (hm : Reachable m) (payload : List Char) :
    Survives registered m payload ↔ Acceptable registered m payload := by
  rw [Survives, PacketManager.putPayload]
  by_cases hbinary : isBinaryMessage payload = true
  · have htext : isTextMessage payload = false := by
      simp only [isBinaryMessage, decide_eq_true_eq] at hbinary
      simp only [isTextMessage, hbinary]
      rfl
    have hacceptable : Acceptable registered m payload ↔
        ∀ w ∈ m.partialPacket, BufferOk registered w payload := by
      rw [Acceptable, if_pos hbinary]
    rw [hacceptable, if_neg (by simp [htext]), if_pos hbinary]
    cases hw : m.partialPacket with
    | none =>
        simp
    | some w =>
        simp only [Option.mem_some_iff, forall_eq', Option.map_eq_some_iff]
        rw [← parseBuffer_survives_iff (held_of_reachable hm w (by rw [hw]; rfl))]
        constructor
        · rintro ⟨m', out, ⟨⟨p, awaits⟩, hparse, hput⟩, hsafe⟩
          refine ⟨p, awaits, hparse, fun hlast => (decodes_iff p).mp (hsafe p ?_)⟩
          subst hlast
          rw [← (Prod.mk.inj hput).2]
          rfl
        · rintro ⟨p, awaits, hparse, hsafe⟩
          refine ⟨_, _, ⟨(p, awaits), hparse, rfl⟩, fun q hq => ?_⟩
          cases awaits with
          | true => exact absurd (show q ∈ (none : Option Packet) from hq) (by simp)
          | false =>
              obtain rfl := Option.some.inj hq
              exact (decodes_iff p).mpr (hsafe rfl)
  · have hacceptable : Acceptable registered m payload ↔ TextOk registered (layout payload) := by
      rw [Acceptable, if_neg hbinary]
    rw [hacceptable, ← parse_survives_iff]
    by_cases htext : isTextMessage payload = true
    · rw [if_pos htext]
      simp only [Option.map_eq_some_iff]
      constructor
      · rintro ⟨m', out, ⟨⟨p, awaits⟩, hparse, hput⟩, hsafe⟩
        refine ⟨p, awaits, hparse, fun hlast => (decodes_iff p).mp (hsafe p ?_)⟩
        subst hlast
        rw [← (Prod.mk.inj hput).2]
        rfl
      · rintro ⟨p, awaits, hparse, hsafe⟩
        refine ⟨_, _, ⟨(p, awaits), hparse, rfl⟩, fun q hq => ?_⟩
        cases awaits with
        | true => exact absurd (show q ∈ (none : Option Packet) from hq) (by simp)
        | false =>
            obtain rfl := Option.some.inj hq
            exact (decodes_iff p).mpr (hsafe rfl)
    · rw [if_neg htext, if_neg hbinary]
      simp only [Option.map_eq_some_iff]
      constructor
      · rintro ⟨m', out, ⟨⟨p, awaits⟩, hparse, hput⟩, hsafe⟩
        refine ⟨p, awaits, hparse, fun _ => (decodes_iff p).mp (hsafe p ?_)⟩
        rw [← (Prod.mk.inj hput).2]
        rfl
      · rintro ⟨p, awaits, hparse, hsafe⟩
        have hframe := frame_of_parse (Bool.eq_false_of_not_eq_true htext) hparse
        refine ⟨_, _, ⟨(p, awaits), hparse, rfl⟩, fun q hq => ?_⟩
        obtain rfl := Option.some.inj hq
        cases awaits with
        | true => exact absurd (held_of_parse hparse).frame hframe
        | false => exact (decodes_iff p).mpr (hsafe rfl)

/-- An event with an empty array is survived by a socket of the root. -/
theorem survives_iff_example :
    @Survives (· = ['/']) decimalCast PacketManager.fresh ['4', '2', '[', ']'] := by
  refine (@survives_iff (· = ['/']) decimalCast _ (@Reachable.fresh decimalCast) _).mpr ?_
  have hlayout : layout ['4', '2', '[', ']'] =
      ⟨4, 2, ['/'], none, none, some ['[', ']']⟩ := rfl
  have hbinary : ¬isBinaryMessage ['4', '2', '[', ']'] = true := by decide
  rw [Acceptable, if_neg hbinary, hlayout]
  refine @TextOk.mk _ decimalCast _ (fun s hs => absurd hs (by simp))
    (fun s hs => absurd hs (by simp)) (fun _ s hs => ?_) (fun h => absurd h (by simp))
  obtain rfl := Option.some.inj hs
  exact jsonOk_of_document (v := .array []) rfl
    (by simp [Value.Readable, Value.ReadableElements])
    (fun _ => by simp [Value.Handled, Value.Dangling]) fun _ => by simp [Value.Shakes]

/-- **A malformed payload is not survived**: an event without a JSON text has no message, and
the handler of the socket dereferences it. -/
theorem not_survives :
    ¬∃ _ : LexicalCast, ∀ (registered : List Char → Prop) (m : PacketManager), Reachable m →
      ∀ payload, Survives registered m payload := by
  rintro ⟨cast, h⟩
  obtain ⟨m', out, hput, hsafe⟩ := h (· = ['/']) PacketManager.fresh Reachable.fresh ['4', '2']
  have hevent : PacketManager.fresh.putPayload ['4', '2'] =
      some (PacketManager.fresh, some (Packet.ofLayout ⟨4, 2, ['/'], none, none, none⟩ 0 (-1))) :=
    rfl
  obtain ⟨-, rfl⟩ := Prod.mk.inj (Option.some.inj (hput.symm.trans hevent))
  have hhandled := (hsafe _ rfl).message ⟨rfl, Or.inl rfl, rfl⟩
  exact absurd hhandled (by decide)

end Registered

end MahjongAI
