import MahjongAI.Message

/-!
# Packets

A packet is sent as one text payload: the frame digit, the type digit, the number of
attachments up to a dash, the namespace up to a comma, the id and the JSON text, each
part left out where it says nothing. Binaries follow as payloads of their own.
`Packet.accept` writes the payloads and `Packet.parse` slices them at the positions where
it finds the delimiters; a packet that announces attachments stays in the
`PacketManager` until `Packet.parseBuffer` has seen them all.

`parse`, `parseBuffer` and `putPayload` are partial: `lexical_cast` throws on a slice that
is no number, and the JSON layer can abort.
-/

open MahjongAI.Json

namespace MahjongAI

/-! ### Searching and slicing -/

/-- `find_first_of`; `none` is `npos`. -/
def findFirstOf (chars : List Char) (pos : ℕ) (s : List Char) : Option ℕ :=
  ((s.drop pos).findIdx? (· ∈ chars)).map (· + pos)

/-- `substr(pos, limit - pos)`, a difference of `size_t`: it wraps when `limit` lies
before `pos`, and the rest of the string is taken. -/
def slice (s : List Char) (pos : ℕ) : Option ℕ → List Char
  | none => s.drop pos
  | some limit => if pos ≤ limit then (s.drop pos).take (limit - pos) else s.drop pos

/-- The value of a signed `char`. -/
def charValue (c : Char) : ℤ :=
  if c.toNat < 128 then c.toNat else c.toNat % 128 - 128

/-! ### Numbers -/

/-- `boost::lexical_cast` to the types that a packet is read with, which is not part of the
repository: a number of 32 bits, or `none` for an exception. -/
class LexicalCast where
  unsigned : List Char → Option (BitVec 32)
  int : List Char → Option (BitVec 32)

/-- `lexical_cast<unsigned>`. -/
def lexicalCastUnsigned [LexicalCast] (s : List Char) : Option ℕ :=
  (LexicalCast.unsigned s).map BitVec.toNat

/-- `lexical_cast<int>`. -/
def lexicalCastInt [LexicalCast] (s : List Char) : Option ℤ :=
  (LexicalCast.int s).map BitVec.toInt

theorem lexicalCastInt_range [LexicalCast] {s : List Char} {n : ℤ}
    (h : lexicalCastInt s = some n) : -2 ^ 31 ≤ n ∧ n < 2 ^ 31 := by
  obtain ⟨b, -, rfl⟩ := Option.map_eq_some_iff.mp h
  exact ⟨b.le_toInt, b.toInt_lt⟩

/-- What is documented of `lexical_cast`, as far as a packet needs it: the decimal digits of
a number that the type holds are read as that number. -/
class LawfulLexicalCast [LexicalCast] : Prop where
  unsigned_toDigits (n : ℕ) : n < 2 ^ 32 →
    lexicalCastUnsigned (Nat.toDigits 10 n) = some n
  int_toDigits (n : ℕ) : n < 2 ^ 31 → lexicalCastInt (Nat.toDigits 10 n) = some (n : ℤ)

/-- The value of a non-empty string of digits. -/
def decimal (s : List Char) : Option ℕ :=
  if s ≠ [] ∧ s.all Char.isDigit then some (Nat.ofDigitChars 10 s 0) else none

/-- The part of `lexical_cast` that reads digits alone, which serves for examples. -/
abbrev decimalCast : LexicalCast where
  unsigned s := ((decimal s).filter (· < 2 ^ 32)).map (BitVec.ofNat 32)
  int s := ((decimal s).filter (· < 2 ^ 31)).map (BitVec.ofNat 32)

theorem decimal_toDigits (n : ℕ) : decimal (Nat.toDigits 10 n) = some n := by
  have hdigits : (Nat.toDigits 10 n).all Char.isDigit = true :=
    List.all_eq_true.mpr fun c hc => Nat.isDigit_of_mem_toDigits (by omega) (by omega) hc
  rw [decimal, if_pos ⟨Nat.toDigits_ne_nil, hdigits⟩, Nat.ofDigitChars_ten_toDigits]

theorem unsigned_decimalCast (n : ℕ) (hn : n < 2 ^ 32) :
    @lexicalCastUnsigned decimalCast (Nat.toDigits 10 n) = some n := by
  have hvalue : (BitVec.ofNat 32 n).toNat = n := by
    rw [BitVec.toNat_ofNat, Nat.mod_eq_of_lt hn]
  change (((decimal (Nat.toDigits 10 n)).filter (· < 2 ^ 32)).map (BitVec.ofNat 32)).map
    BitVec.toNat = some n
  rw [decimal_toDigits, Option.filter_some, if_pos (decide_eq_true hn), Option.map_some,
    Option.map_some, hvalue]

theorem int_decimalCast (n : ℕ) (hn : n < 2 ^ 31) :
    @lexicalCastInt decimalCast (Nat.toDigits 10 n) = some (n : ℤ) := by
  have hvalue : (BitVec.ofNat 32 n).toInt = (n : ℤ) := by
    rw [BitVec.toInt_eq_toNat_of_lt, BitVec.toNat_ofNat, Nat.mod_eq_of_lt (by omega)]
    rw [BitVec.toNat_ofNat, Nat.mod_eq_of_lt (by omega)]
    omega
  change (((decimal (Nat.toDigits 10 n)).filter (· < 2 ^ 31)).map (BitVec.ofNat 32)).map
    BitVec.toInt = some (n : ℤ)
  rw [decimal_toDigits, Option.filter_some, if_pos (decide_eq_true hn), Option.map_some,
    Option.map_some, hvalue]

theorem lawful_decimalCast : @LawfulLexicalCast decimalCast :=
  @LawfulLexicalCast.mk decimalCast unsigned_decimalCast int_decimalCast

namespace Decimal

scoped instance cast : LexicalCast := decimalCast

scoped instance lawful : LawfulLexicalCast := lawful_decimalCast

end Decimal

/-! ### The packet -/

/-- `sio::packet`. The frame and the type are integers, as a cast from a received
character may give any. -/
structure Packet where
  frame : ℤ
  type : ℤ
  nsp : List Char
  packId : ℤ
  message : Message
  pendingBuffers : ℕ
  buffers : List Buffer

namespace Packet

/-- `frame_message`; the other frames are `open`, `close`, `ping`, `pong`, `upgrade` and
`noop`. -/
def frameMessage : ℤ := 4
def frameOpen : ℤ := 0
def framePing : ℤ := 2
def framePong : ℤ := 3
def frameNoop : ℤ := 6

def typeConnect : ℤ := 0
def typeDisconnect : ℤ := 1
def typeEvent : ℤ := 2
def typeAck : ℤ := 3
def typeError : ℤ := 4
def typeBinaryEvent : ℤ := 5
def typeBinaryAck : ℤ := 6

/-- The mask bit of a type that `accept` has yet to settle. -/
def typeUndetermined : ℤ := 0x10

/-- The constructor of event and ack packets. -/
def ofMessage (nsp : List Char) (message : Message) (packId : ℤ) (isAck : Bool) : Packet where
  frame := frameMessage
  type := (if isAck then typeAck else typeEvent) + typeUndetermined
  nsp := nsp
  packId := packId
  message := message
  pendingBuffers := 0
  buffers := []

/-- The constructor of the other message packets. -/
def ofType (type : ℤ) (nsp : List Char) (message : Message) : Packet where
  frame := frameMessage
  type := type
  nsp := nsp
  packId := -1
  message := message
  pendingBuffers := 0
  buffers := []

/-- The constructor of engine frames. -/
def ofFrame (frame : ℤ) : Packet where
  frame := frame
  type := typeUndetermined
  nsp := []
  packId := -1
  message := .nullptr
  pendingBuffers := 0
  buffers := []

/-- A binary event or a binary ack. -/
def isBinaryType (type : ℤ) : Bool :=
  type = typeBinaryEvent ∨ type = typeBinaryAck

/-! ### Encoding -/

/-- `_type & ~type_undetermined`. -/
def clearUndetermined (type : ℤ) : ℤ :=
  if type / 16 % 2 = 1 then type - 16 else type

/-- The type that `accept` settles on. -/
def settle (type : ℤ) (hasBinary : Bool) : ℤ :=
  let type := clearUndetermined type
  if type = typeEvent then if hasBinary then typeBinaryEvent else typeEvent
  else if type = typeAck then if hasBinary then typeBinaryAck else typeAck
  else type

/-- The text between the frame digit and the JSON text. -/
def header (type : ℤ) (attachments : ℕ) (nsp : List Char) (packId : ℤ) (hasMessage : Bool) :
    List Char :=
  writeInt type ++ ((if 0 < attachments then writeInt attachments ++ ['-'] else []) ++
    ((if nsp ≠ [] ∧ nsp ≠ ['/'] then nsp ++ (if hasMessage ∨ 0 ≤ packId then [','] else [])
      else []) ++ (if 0 ≤ packId then writeInt packId else [])))

/-- The JSON value of the message and its attachments, if there is a message. -/
def acceptOptional : Message → Option (Option Value × List Buffer)
  | .nullptr => some (none, [])
  | m => (acceptMessage m []).map fun (v, buffers) => (some v, buffers)

/-- `packet::accept`: the packet with its type settled, the text payload and the binary
payloads. -/
def accept (dtoa : Float → List Char) (p : Packet) : Option (Packet × List Char × List Buffer) :=
  let frameChar := Char.ofNat (p.frame + '0'.toNat).toNat
  if p.frame ≠ frameMessage then some (p, [frameChar], [])
  else do
    let (doc, buffers) ← acceptOptional p.message
    let type := settle p.type (buffers ≠ [])
    let text := header type buffers.length p.nsp p.packId doc.isSome
    some ({ p with type := type },
      frameChar :: (text ++ (doc.map (write dtoa)).getD []), buffers)

/-! ### Decoding -/

/-- The packet that a text payload is parsed into. -/
def fresh (frame : ℤ) : Packet where
  frame := frame
  type := typeUndetermined
  nsp := []
  packId := -1
  message := .nullptr
  pendingBuffers := 0
  buffers := []

/-- `Document::Parse` and `from_json` on a JSON text. -/
def readMessage (buffers : List Buffer) (json : List Char) : Option Message :=
  (document json).bind (fromJson buffers)

/-- The id of a packet, between `pos` and `json` if there is anything. -/
def parseId [LexicalCast] (payload : List Char) (pos json : ℕ) : Option ℤ :=
  if pos < json then lexicalCastInt (slice payload pos (some json)) else some (-1)

/-- The last part of `parse`: the id from `pos` on, the JSON text from `json` on. The
result tells whether attachments are awaited. -/
def parseMessage [LexicalCast] (p : Packet) (payload : List Char) (pos json : ℕ) :
    Option (Packet × Bool) :=
  (parseId payload pos json).bind fun packId =>
    if p.frame = frameMessage ∧ isBinaryType p.type then
      some ({ p with packId := packId, buffers := [payload.drop json] }, true)
    else (readMessage [] (payload.drop json)).map fun message =>
      ({ p with packId := packId, message := message }, false)

/-- The middle part of `parse`: the namespace, found from `pos` on. The comma that ends
it is searched for from the start of the payload. -/
def parseBody [LexicalCast] (p : Packet) (payload : List Char) (pos : ℕ) :
    Option (Packet × Bool) :=
  match findFirstOf ['{', '[', '"', '/'] pos payload with
  | none => some ({ p with nsp := ['/'] }, false)
  | some nspJson =>
      if payload.getD nspJson '\x00' = '/' then
        match findFirstOf [','] 0 payload with
        | none => some ({ p with nsp := payload.drop nspJson }, false)
        | some comma =>
            match findFirstOf ['"', '[', '{'] (comma + 1) payload with
            | none => some ({ p with nsp := slice payload nspJson (some comma) }, false)
            | some json =>
                parseMessage { p with nsp := slice payload nspJson (some comma) } payload
                  (comma + 1) json
      else parseMessage { p with nsp := ['/'] } payload pos nspJson

/-- `packet::parse`. Without a dash the search goes on at position `0`, which is
`npos + 1`. -/
def parse [LexicalCast] (payload : List Char) : Option (Packet × Bool) :=
  let frame := charValue (payload.getD 0 '\x00') - '0'.toNat
  if frame = frameMessage then
    let type := charValue (payload.getD 1 '\x00') - '0'.toNat
    if type < typeConnect ∨ typeBinaryAck < type then some ({ fresh frame with type := type }, false)
    else if isBinaryType type then
      let score := findFirstOf ['-'] 0 payload
      (lexicalCastUnsigned (slice payload 2 score)).bind fun pending =>
        parseBody { fresh frame with type := type, pendingBuffers := pending } payload
          ((score.map (· + 1)).getD 0)
    else parseBody { fresh frame with type := type } payload 2
  else parseBody (fresh frame) payload 1

/-- `packet::parse_buffer`: takes an attachment, and reads the JSON text after the last.
The result tells whether more are awaited. -/
def parseBuffer (p : Packet) (payload : List Char) : Option (Packet × Bool) :=
  if 0 < p.pendingBuffers then
    let buffers := p.buffers ++ [payload.tail]
    if p.pendingBuffers = 1 then
      match buffers with
      | [] => none
      | front :: buffers => (readMessage buffers front).map fun message =>
          ({ p with pendingBuffers := 0, buffers := [], message := message }, false)
    else some ({ p with pendingBuffers := p.pendingBuffers - 1, buffers := buffers }, true)
  else some (p, false)

end Packet

/-! ### The manager -/

/-- `is_text_message`: a payload that starts with the message digit. -/
def isTextMessage (payload : List Char) : Bool :=
  payload.head? = some '4'

/-- `is_binary_message`. -/
def isBinaryMessage (payload : List Char) : Bool :=
  payload.head? = some binaryFrame

/-- `sio::packet_manager`: the packet that awaits attachments. -/
structure PacketManager where
  partialPacket : Option Packet

namespace PacketManager

/-- A manager that has seen nothing, or has been reset. -/
def fresh : PacketManager := ⟨none⟩

/-- `put_payload`: the manager afterwards, and the packet passed to the callback. -/
def putPayload [LexicalCast] (m : PacketManager) (payload : List Char) :
    Option (PacketManager × Option Packet) :=
  if isTextMessage payload then
    (Packet.parse payload).map fun (p, awaits) =>
      if awaits then (⟨some p⟩, none) else (m, some p)
  else if isBinaryMessage payload then
    match m.partialPacket with
    | none => some (m, none)
    | some p => (p.parseBuffer payload).map fun (p, awaits) =>
        if awaits then (⟨some p⟩, none) else (⟨none⟩, some p)
  else (Packet.parse payload).map fun (p, _) => (m, some p)

/-- The callbacks of a sequence of payloads. -/
def run [LexicalCast] (m : PacketManager) :
    List (List Char) → Option (PacketManager × List Packet)
  | [] => some (m, [])
  | payload :: payloads => do
      let (m, p) ← m.putPayload payload
      let (m, ps) ← run m payloads
      some (m, p.toList ++ ps)

/-- The payloads of a packet, in the order of the encode callbacks, and the packet
afterwards. -/
def encode (dtoa : Float → List Char) (p : Packet) : Option (Packet × List (List Char)) :=
  (p.accept dtoa).map fun (p, text, buffers) => (p, text :: buffers)

end PacketManager

end MahjongAI
