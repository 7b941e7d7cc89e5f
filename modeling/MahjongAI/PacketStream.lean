import MahjongAI.Packet
import MahjongAI.Runs

/-!
# The Packet Stream Round Trip

The encoder and the decoder of packets meet at the text of a packet: a prefix without
delimiters, the namespace, the id, the JSON text. `parseBody_of_text` slices that text
back into its parts, whichever of them are there. A packet with attachments then waits
in the manager, and the state it waits in (`Awaits`) tells which payloads are still to
come; packets without attachments, fed in between, do not touch it.

## Main results

* `run_stream`: **the round trip.** The payloads of any packets that the client builds,
  with other complete packets and engine frames inserted anywhere, are decoded to the
  packets sent, each once, in the order in which they are completed.
-/

open MahjongAI.Json Runs

namespace MahjongAI

/-! ### Searching and slicing -/

theorem findFirstOf_append (chars before mid : List Char) {c : Char} (after : List Char)
    (hmid : ∀ x ∈ mid, x ∉ chars) (hc : c ∈ chars) :
    findFirstOf chars before.length (before ++ (mid ++ c :: after)) =
      some (before.length + mid.length) := by
  have hfind : (mid ++ c :: after).findIdx? (· ∈ chars) = some mid.length := by
    induction mid with
    | nil => simp [List.findIdx?_cons, hc]
    | cons x mid ih =>
        have hx : x ∉ chars := hmid x (by simp)
        rw [List.cons_append, List.findIdx?_cons]
        simp [hx, ih fun y hy => hmid y (List.mem_cons_of_mem _ hy)]
  rw [findFirstOf, List.drop_left, hfind]
  simp [Nat.add_comm]

theorem findFirstOf_eq_none (chars before mid : List Char)
    (hmid : ∀ x ∈ mid, x ∉ chars) :
    findFirstOf chars before.length (before ++ mid) = none := by
  have hfind : mid.findIdx? (· ∈ chars) = none := by
    rw [List.findIdx?_eq_none_iff]
    intro x hx
    simpa using hmid x hx
  rw [findFirstOf, List.drop_left, hfind]
  rfl

theorem slice_append (before mid after : List Char) :
    slice (before ++ (mid ++ after)) before.length (some (before.length + mid.length)) = mid := by
  rw [slice, if_pos (Nat.le_add_right _ _), List.drop_left, Nat.add_sub_cancel_left,
    List.take_left]

/-! ### Numbers -/

theorem writeInt_ofNat (n : ℕ) : writeInt n = Nat.toDigits 10 n := by
  rw [writeInt, if_neg (by omega), Int.natAbs_natCast]

theorem isDigit_of_mem_writeInt {n : ℕ} {c : Char} (h : c ∈ writeInt n) : c.isDigit = true := by
  rw [writeInt_ofNat] at h
  exact Nat.isDigit_of_mem_toDigits (by omega) (by omega) h

/-- A digit is none of the delimiters. -/
theorem notMem_of_isDigit {c : Char} (h : c.isDigit = true) {chars : List Char}
    (hchars : chars.any Char.isDigit = false) : c ∉ chars :=
  fun hc => List.any_eq_false.mp hchars c hc h

theorem writeInt_ne_nil (n : ℕ) : writeInt n ≠ [] := by
  rw [writeInt_ofNat]
  exact Nat.toDigits_ne_nil

theorem lexicalCastInt_writeInt [LexicalCast] [LawfulLexicalCast] {n : ℕ} (h : n < 2 ^ 31) :
    lexicalCastInt (writeInt n) = some (n : ℤ) := by
  rw [writeInt_ofNat]
  exact LawfulLexicalCast.int_toDigits n h

theorem lexicalCastUnsigned_writeInt [LexicalCast] [LawfulLexicalCast] {n : ℕ}
    (h : n < 2 ^ 32) : lexicalCastUnsigned (writeInt n) = some n := by
  rw [writeInt_ofNat]
  exact LawfulLexicalCast.unsigned_toDigits n h

/-! ### The text of a packet -/

/-- A namespace that the client sends: `/`, or one that starts so and has no comma. -/
structure IsNamespace (nsp : List Char) : Prop where
  slash : nsp.head? = some '/'
  comma : ',' ∉ nsp

/-- The root namespace. -/
theorem isNamespace_root : IsNamespace ['/'] :=
  ⟨rfl, by decide⟩

namespace Packet

/-- The namespace in front of a message. -/
def nspText (nsp : List Char) : List Char :=
  if nsp = ['/'] then [] else nsp ++ [',']

/-- The id in front of a message. -/
def idText (packId : ℤ) : List Char :=
  if 0 ≤ packId then writeInt packId else []

theorem isDigit_of_mem_idText {packId : ℤ} {c : Char} (h : c ∈ idText packId) :
    c.isDigit = true := by
  rw [idText] at h
  split at h
  · rename_i hid
    obtain ⟨n, rfl⟩ := Int.eq_ofNat_of_zero_le hid
    exact isDigit_of_mem_writeInt h
  · exact absurd h List.not_mem_nil

/-- **Slicing.** The last part of a text is its id and its JSON text. -/
theorem parseMessage_of_text [LexicalCast] [LawfulLexicalCast] (p : Packet) (before : List Char)
    {packId : ℤ} (json : List Char)
    (hid : -1 ≤ packId ∧ packId < 2 ^ 31) :
    parseMessage p (before ++ (idText packId ++ json)) before.length
        (before.length + (idText packId).length) =
      if p.frame = frameMessage ∧ isBinaryType p.type then
        some ({ p with packId := packId, buffers := [json] }, true)
      else (readMessage [] json).map fun message =>
        ({ p with packId := packId, message := message }, false) := by
  have hparse : parseId (before ++ (idText packId ++ json)) before.length
      (before.length + (idText packId).length) = some packId := by
    rw [parseId, slice_append]
    by_cases h : 0 ≤ packId
    · obtain ⟨n, rfl⟩ := Int.eq_ofNat_of_zero_le h
      have hpos : 0 < (writeInt n).length := List.length_pos_of_ne_nil (writeInt_ne_nil n)
      rw [idText, if_pos h, if_pos (by omega), lexicalCastInt_writeInt (by omega)]
    · have hone : packId = -1 := by omega
      subst hone
      simp [idText]
  have hdrop : (before ++ (idText packId ++ json)).drop
      (before.length + (idText packId).length) = json := by
    rw [← List.append_assoc, ← List.length_append, List.drop_left]
  rw [parseMessage, hparse, hdrop]
  rfl

/-- **Slicing.** The body of a packet with an array, after any text without a comma. -/
theorem parseBody_of_text [LexicalCast] (p : Packet) (packId : ℤ) {before nsp json : List Char}
    (hbefore : ',' ∉ before) (hnsp : IsNamespace nsp) (hjson : json.head? = some '[') :
    parseBody p (before ++ (nspText nsp ++ (idText packId ++ json))) before.length =
      parseMessage { p with nsp := nsp } ((before ++ nspText nsp) ++ (idText packId ++ json))
        (before ++ nspText nsp).length
        ((before ++ nspText nsp).length + (idText packId).length) := by
  obtain ⟨rest, rfl⟩ : ∃ rest, json = '[' :: rest := by
    cases json with
    | nil => exact absurd hjson (by simp)
    | cons c rest => exact ⟨rest, by rw [Option.some.inj hjson]⟩
  have hid : ∀ x ∈ idText packId, x ∉ ['{', '[', '"', '/'] := fun x hx =>
    notMem_of_isDigit (isDigit_of_mem_idText hx) rfl
  by_cases hroot : nsp = ['/']
  · -- without a namespace the search stops at the bracket
    have hfind := findFirstOf_append ['{', '[', '"', '/'] before (idText packId) (c := '[')
      rest hid (by decide)
    have hget : (before ++ (idText packId ++ '[' :: rest)).getD
        (before.length + (idText packId).length) '\x00' = '[' := by
      rw [← List.append_assoc, ← List.length_append, List.getD_eq_getElem?_getD]
      simp
    have hne : ¬('[' : Char) = '/' := by decide
    rw [nspText, if_pos hroot, List.nil_append, List.append_nil, parseBody, hfind]
    simp only [hget, hne, if_false, hroot]
  · obtain ⟨tail, rfl⟩ : ∃ tail, nsp = '/' :: tail := by
      have h := hnsp.slash
      cases nsp with
      | nil => exact absurd h (by simp)
      | cons c tail => exact ⟨tail, by rw [Option.some.inj h]⟩
    have htext : before ++ (nspText ('/' :: tail) ++ (idText packId ++ '[' :: rest)) =
        before ++ ('/' :: tail ++ ',' :: (idText packId ++ '[' :: rest)) := by
      simp [nspText, hroot]
    have hslash := findFirstOf_append ['{', '[', '"', '/'] before [] (c := '/')
      (tail ++ ',' :: (idText packId ++ '[' :: rest)) (by simp) (by decide)
    have hget : (before ++ ('/' :: tail ++ ',' :: (idText packId ++ '[' :: rest))).getD
        before.length '\x00' = '/' := by
      rw [List.getD_eq_getElem?_getD]
      simp
    have hcomma := findFirstOf_append [','] [] (before ++ '/' :: tail) (c := ',')
      (idText packId ++ '[' :: rest)
      (by
        intro x hx hmem
        rw [List.mem_singleton] at hmem
        subst hmem
        exact (List.mem_append.mp hx).elim hbefore hnsp.comma)
      (by decide)
    have hbracket := findFirstOf_append ['"', '[', '{'] (before ++ '/' :: tail ++ [','])
      (idText packId) (c := '[') rest
      (fun x hx => notMem_of_isDigit (isDigit_of_mem_idText hx) rfl) (by decide)
    have hslice := slice_append before ('/' :: tail) (',' :: (idText packId ++ '[' :: rest))
    rw [htext, parseBody]
    simp only [List.nil_append, List.append_assoc, List.cons_append, List.length_append,
      List.length_cons, List.length_nil, Nat.zero_add, Nat.add_zero]
      at hslash hget hcomma hbracket hslice ⊢
    have hlen : (nspText ('/' :: tail)).length = tail.length + 1 + 1 := by
      simp [nspText, hroot]
    have htext : before ++ (nspText ('/' :: tail) ++ (idText packId ++ '[' :: rest)) =
        before ++ '/' :: (tail ++ ',' :: (idText packId ++ '[' :: rest)) := by
      simp [nspText, hroot]
    simp only [hslash, hget, if_true, hcomma, hslice]
    rw [hlen, htext, Nat.add_assoc, hbracket]

/-- A namespace alone is the rest of the text. -/
theorem parseBody_of_nsp [LexicalCast] (p : Packet) {before nsp : List Char}
    (hbefore : ',' ∉ before)
    (hnsp : IsNamespace nsp) :
    parseBody p (before ++ (if nsp = ['/'] then [] else nsp)) before.length =
      some ({ p with nsp := nsp }, false) := by
  by_cases hroot : nsp = ['/']
  · have hfind := findFirstOf_eq_none ['{', '[', '"', '/'] before [] (by simp)
    rw [if_pos hroot, parseBody, hfind, hroot]
  · obtain ⟨tail, rfl⟩ : ∃ tail, nsp = '/' :: tail := by
      have h := hnsp.slash
      cases nsp with
      | nil => exact absurd h (by simp)
      | cons c tail => exact ⟨tail, by rw [Option.some.inj h]⟩
    have hslash := findFirstOf_append ['{', '[', '"', '/'] before [] (c := '/') tail (by simp)
      (by decide)
    have hget : (before ++ '/' :: tail).getD before.length '\x00' = '/' := by
      rw [List.getD_eq_getElem?_getD]
      simp
    have hcomma := findFirstOf_eq_none [','] [] (before ++ '/' :: tail)
      (by
        intro x hx hmem
        rw [List.mem_singleton] at hmem
        subst hmem
        exact (List.mem_append.mp hx).elim hbefore hnsp.comma)
    simp only [List.nil_append, List.length_nil, Nat.add_zero] at hslash hcomma
    rw [if_neg hroot, parseBody, hslash]
    simp only [hget, if_true, hcomma, List.drop_left]

/-- The first two characters of a text without attachments. -/
theorem parse_of_type [LexicalCast] {type : ℤ} {c : Char} (hc : charValue c - '0'.toNat = type)
    (htype : typeConnect ≤ type ∧ type ≤ typeBinaryAck) (hbinary : isBinaryType type = false)
    (rest : List Char) :
    parse ('4' :: c :: rest) = parseBody { fresh 4 with type := type } ('4' :: c :: rest) 2 := by
  have hframe : charValue '4' - '0'.toNat = frameMessage := by decide
  have hrange : ¬(type < typeConnect ∨ typeBinaryAck < type) := by omega
  rw [parse]
  simp only [List.getD_cons_zero, List.getD_cons_succ, hframe, if_true, hc, hrange, if_false,
    hbinary, Bool.false_eq_true]
  rfl

/-- The first characters of a text with attachments. -/
theorem parse_of_binaryType [LexicalCast] [LawfulLexicalCast] {type : ℤ} {c : Char}
    (hc : charValue c - '0'.toNat = type)
    (hc' : c ≠ '-') (htype : typeConnect ≤ type ∧ type ≤ typeBinaryAck)
    (hbinary : isBinaryType type = true) {n : ℕ} (hn : n < 2 ^ 32) (rest : List Char) :
    parse ('4' :: c :: (writeInt n ++ '-' :: rest)) =
      parseBody { fresh 4 with type := type, pendingBuffers := n }
        ('4' :: c :: (writeInt n ++ '-' :: rest)) ((writeInt n).length + 3) := by
  have hframe : charValue '4' - '0'.toNat = frameMessage := by decide
  have hrange : ¬(type < typeConnect ∨ typeBinaryAck < type) := by omega
  have hdash := findFirstOf_append ['-'] [] ('4' :: c :: writeInt n) (c := '-') rest
    (by
      intro x hx hmem
      rw [List.mem_singleton] at hmem
      subst hmem
      rcases List.mem_cons.mp hx with h | hx
      · exact absurd h (by decide)
      rcases List.mem_cons.mp hx with h | hx
      · exact hc' h.symm
      · exact absurd (isDigit_of_mem_writeInt hx) (by decide))
    (by decide)
  have hslice := slice_append ['4', c] (writeInt n) ('-' :: rest)
  simp only [List.nil_append, List.length_nil, List.length_cons, Nat.zero_add,
    List.cons_append, Nat.reduceAdd] at hdash hslice
  rw [Nat.add_comm] at hslice
  rw [parse]
  simp only [List.getD_cons_zero, List.getD_cons_succ, hframe, if_true, hc, hrange, if_false,
    hbinary, hdash, hslice, lexicalCastUnsigned_writeInt hn]
  rfl

/-! ### The packets of the client -/

/-- What the client builds: events and acks with an array, connect and disconnect packets
without a message. The attachments are counted by an `int`. -/
inductive Sendable : Packet → Prop
  | event {nsp : List Char} {ms : List Message} {packId : ℤ} (hnsp : IsNamespace nsp)
      (hms : Message.PlainElements ms) (hid : -1 ≤ packId ∧ packId < 2 ^ 31)
      (hdata : (Message.array ms).attachments.length < 2 ^ 31) :
      Sendable (ofMessage nsp (.array ms) packId false)
  | ack {nsp : List Char} {ms : List Message} {packId : ℤ} (hnsp : IsNamespace nsp)
      (hms : Message.PlainElements ms) (hid : 0 ≤ packId ∧ packId < 2 ^ 31)
      (hdata : (Message.array ms).attachments.length < 2 ^ 31) :
      Sendable (ofMessage nsp (.array ms) packId true)
  | connect {nsp : List Char} (hnsp : IsNamespace nsp) :
      Sendable (ofType typeConnect nsp .nullptr)
  | disconnect {nsp : List Char} (hnsp : IsNamespace nsp) :
      Sendable (ofType typeDisconnect nsp .nullptr)

/-- The frames of the engine. -/
def EngineFrame (p : Packet) : Prop :=
  p = ofFrame framePing ∨ p = ofFrame framePong ∨ p = ofFrame frameNoop

/-- What the decode callback has to see of `p`: its namespace, id and message, with the
type that `encode` settled on. Frames without a namespace are given the root. -/
def expected (p : Packet) (type : ℤ) : Packet where
  frame := p.frame
  type := type
  nsp := if p.frame = frameMessage then p.nsp else ['/']
  packId := p.packId
  message := p.message
  pendingBuffers := 0
  buffers := []

/-! ### Waiting for attachments -/

/-- The packet `w` becomes `q` when the attachments `data` have arrived. -/
def Awaits (w : Packet) (data : List Buffer) (q : Packet) : Prop :=
  ∃ json done, w.pendingBuffers = data.length ∧ w.buffers = json :: done ∧
    readMessage (done ++ data) json = some q.message ∧
    q = { w with pendingBuffers := 0, buffers := [], message := q.message }

/-- **An attachment** brings the packet one step on. -/
theorem Awaits.parseBuffer {w q : Packet} {data : Buffer} {rest : List Buffer}
    (h : Awaits w (data :: rest) q) :
    (rest = [] → w.parseBuffer (binaryFrame :: data) = some (q, false)) ∧
      (rest ≠ [] → ∃ w', w.parseBuffer (binaryFrame :: data) = some (w', true) ∧
        Awaits w' rest q) := by
  obtain ⟨json, done, hpending, hbuffers, hread, hq⟩ := h
  rw [List.length_cons] at hpending
  refine ⟨fun hrest => ?_, fun hrest => ?_⟩
  · subst hrest
    rw [List.length_nil, Nat.zero_add] at hpending
    rw [Packet.parseBuffer, if_pos (by omega), if_pos hpending, hbuffers]
    simp only [List.tail_cons, List.cons_append, hread, Option.map_some]
    rw [← hq]
  · have hpos : 0 < rest.length := List.length_pos_of_ne_nil hrest
    refine ⟨{ w with pendingBuffers := w.pendingBuffers - 1, buffers := w.buffers ++ [data] },
      ?_, json, done ++ [data], ?_, ?_, ?_, hq⟩
    · rw [Packet.parseBuffer, if_pos (by omega), if_neg (by omega)]
      rfl
    · simp [hpending]
    · simp [hbuffers]
    · simpa using hread

/-! ### Encoding and parsing one packet -/

theorem header_of_message {nsp : List Char} (hnsp : IsNamespace nsp) (type : ℤ) (n : ℕ)
    (packId : ℤ) :
    header type n nsp packId true =
      writeInt type ++ ((if 0 < n then writeInt n ++ ['-'] else []) ++
        (nspText nsp ++ idText packId)) := by
  have hne : nsp ≠ [] := by
    rintro rfl
    exact absurd hnsp.slash (by simp)
  by_cases hroot : nsp = ['/'] <;> simp [header, nspText, idText, hne, hroot]

/-- A text without attachments is read at once. -/
theorem parse_text [LexicalCast] [LawfulLexicalCast] {nsp json : List Char} {packId type : ℤ}
    {c : Char} {message : Message}
    (hnsp : IsNamespace nsp) (hid : -1 ≤ packId ∧ packId < 2 ^ 31)
    (hjson : json.head? = some '[') (hread : readMessage [] json = some message)
    (hc : charValue c - '0'.toNat = type) (hc' : c ≠ ',')
    (htype : typeConnect ≤ type ∧ type ≤ typeBinaryAck) (hbinary : isBinaryType type = false) :
    parse ('4' :: c :: (nspText nsp ++ (idText packId ++ json))) =
      some ({ fresh 4 with type := type, nsp := nsp, packId := packId, message := message },
        false) := by
  have hbefore : ',' ∉ ['4', c] := by simp [hc'.symm]
  have hbody := parseBody_of_text { fresh 4 with type := type } packId hbefore hnsp hjson
  have hmessage := parseMessage_of_text { fresh 4 with type := type, nsp := nsp }
    (['4', c] ++ nspText nsp) json hid
  rw [parse_of_type hc htype hbinary]
  refine (hbody.trans hmessage).trans ?_
  simp [hbinary, hread]

/-- A text with attachments leaves a packet that awaits them. -/
theorem parse_binary_text [LexicalCast] [LawfulLexicalCast] {nsp json : List Char}
    {packId type : ℤ} {c : Char} {message : Message}
    {data : List Buffer} (hnsp : IsNamespace nsp) (hid : -1 ≤ packId ∧ packId < 2 ^ 31)
    (hjson : json.head? = some '[') (hread : readMessage data json = some message)
    (hdata : data.length < 2 ^ 32) (hc : charValue c - '0'.toNat = type)
    (hc' : c ≠ ',' ∧ c ≠ '-') (htype : typeConnect ≤ type ∧ type ≤ typeBinaryAck)
    (hbinary : isBinaryType type = true) :
    ∃ w, parse ('4' :: c :: (writeInt data.length ++
        '-' :: (nspText nsp ++ (idText packId ++ json)))) = some (w, true) ∧
      Awaits w data
        { fresh 4 with type := type, nsp := nsp, packId := packId, message := message } := by
  have hbefore : ',' ∉ '4' :: c :: (writeInt data.length ++ ['-']) := by
    intro h
    rcases List.mem_cons.mp h with h | h
    · exact absurd h (by decide)
    rcases List.mem_cons.mp h with h | h
    · exact hc'.1 h.symm
    rcases List.mem_append.mp h with h | h
    · exact absurd (isDigit_of_mem_writeInt h) (by decide)
    · exact absurd h (by decide)
  have hbody := parseBody_of_text
    { fresh 4 with type := type, pendingBuffers := data.length } packId hbefore hnsp hjson
  have hmessage := parseMessage_of_text
    { fresh 4 with type := type, pendingBuffers := data.length, nsp := nsp }
    ('4' :: c :: (writeInt data.length ++ ['-']) ++ nspText nsp) json hid
  have hlen : ('4' :: c :: (writeInt data.length ++ ['-'])).length =
      (writeInt data.length).length + 3 := by
    simp
  rw [hlen] at hbody
  simp only [List.cons_append, List.append_assoc, List.nil_append] at hbody hmessage
  refine ⟨{ fresh 4 with
    type := type, pendingBuffers := data.length, nsp := nsp, packId := packId, buffers := [json] },
    ?_, json, [], rfl, rfl, hread, rfl⟩
  rw [parse_of_binaryType hc hc'.2 htype hbinary hdata]
  refine (hbody.trans hmessage).trans ?_
  rw [if_pos ⟨rfl, hbinary⟩]

/-- A text that is only a namespace. -/
theorem parse_nsp_text [LexicalCast] {nsp : List Char} {type : ℤ} {c : Char}
    (hnsp : IsNamespace nsp)
    (hc : charValue c - '0'.toNat = type) (hc' : c ≠ ',')
    (htype : typeConnect ≤ type ∧ type ≤ typeBinaryAck) (hbinary : isBinaryType type = false) :
    parse ('4' :: c :: (if nsp = ['/'] then [] else nsp)) =
      some ({ fresh 4 with type := type, nsp := nsp }, false) := by
  have hbefore : ',' ∉ ['4', c] := by simp [hc'.symm]
  rw [parse_of_type hc htype hbinary]
  exact parseBody_of_nsp { fresh 4 with type := type } hbefore hnsp

/-- What `encode` and `parse` do with a packet `p` of the client: without attachments the
text is read at once, with attachments it leaves a packet that awaits them. -/
structure Encodes [LexicalCast] (dtoa : Float → List Char) (p : Packet) (type : ℤ)
    (text : List Char) :
    Prop where
  encode : PacketManager.encode dtoa p =
    some ({ p with type := type }, text :: p.message.attachments.map (binaryFrame :: ·))
  settled : isBinaryType type = true ↔ p.message.attachments ≠ []
  isText : isTextMessage text = true
  complete : p.message.attachments = [] → parse text = some (p.expected type, false)
  awaits : p.message.attachments ≠ [] → ∃ w, parse text = some (w, true) ∧
    Awaits w p.message.attachments (p.expected type)

/-- Events and acks. -/
theorem encodes_ofMessage [LexicalCast] [LawfulLexicalCast] (dtoa : Float → List Char)
    {nsp : List Char} {ms : List Message}
    {packId : ℤ} (isAck : Bool) (hnsp : IsNamespace nsp) (hms : Message.PlainElements ms)
    (hid : -1 ≤ packId ∧ packId < 2 ^ 31)
    (hdata : (Message.array ms).attachments.length < 2 ^ 31) :
    ∃ type text, Encodes dtoa (ofMessage nsp (.array ms) packId isAck) type text := by
  obtain ⟨v, haccept, hplain, hfrom⟩ := acceptMessage_plain (.array ms)
    (by rwa [Message.Plain]) [] (by simpa using hdata)
  obtain ⟨vs, rfl⟩ : ∃ vs, v = .array vs := by
    rw [acceptMessage] at haccept
    obtain ⟨⟨vs, buffers⟩, -, heq⟩ := Option.map_eq_some_iff.mp haccept
    exact ⟨vs, (Prod.mk.inj heq).1.symm⟩
  rw [List.nil_append] at haccept
  generalize hall : (Message.array ms).attachments = data at *
  have hjson : (write dtoa (.array vs)).head? = some '[' := by simp [write]
  have hread : readMessage data (write dtoa (.array vs)) = some (.array ms) := by
    have h := hfrom [] [] rfl (by simpa using hdata)
    rw [readMessage, document_write dtoa hplain, Option.bind_some]
    simpa using h
  have hencode : PacketManager.encode dtoa (ofMessage nsp (.array ms) packId isAck) =
      some ({ ofMessage nsp (.array ms) packId isAck with
          type := settle (ofMessage nsp (.array ms) packId isAck).type (data ≠ []) },
        ('4' :: (header (settle (ofMessage nsp (.array ms) packId isAck).type (data ≠ []))
          data.length nsp packId true ++ write dtoa (.array vs))) ::
          data.map (binaryFrame :: ·)) := by
    have hchar : Char.ofNat (frameMessage + ('0'.toNat : ℤ)).toNat = '4' := by decide
    have hne : (data.map (binaryFrame :: ·) ≠ []) = (data ≠ []) := by simp
    simp only [PacketManager.encode, accept, ofMessage, acceptOptional, haccept, hchar,
      Option.map_some, bind, Option.bind_some, List.length_map, hne, ne_eq, not_true_eq_false,
      if_false, Option.isSome_some, Option.getD_some]
  -- the four types differ in their digit and in whether attachments are announced
  have hcases : ∀ type c, settle (ofMessage nsp (.array ms) packId isAck).type (data ≠ []) = type →
      writeInt type = [c] → charValue c - '0'.toNat = type → c ≠ ',' ∧ c ≠ '-' →
      typeConnect ≤ type ∧ type ≤ typeBinaryAck → (isBinaryType type = true ↔ data ≠ []) →
        ∃ type text, Encodes dtoa (ofMessage nsp (.array ms) packId isAck) type text := by
    intro type c htype hwrite hc hc' hrange hbinary
    rw [htype, header_of_message hnsp, hwrite] at hencode
    have hexpected : (ofMessage nsp (.array ms) packId isAck).expected type =
        { fresh 4 with type := type, nsp := nsp, packId := packId, message := .array ms } := rfl
    refine ⟨type, _, ⟨by rw [hencode]; exact congrArg _ (congrArg _ (congrArg _
      (congrArg _ hall.symm))), hall ▸ hbinary, rfl, fun hnone => ?_, fun hsome => ?_⟩⟩
    · have hd : data = [] := hall.symm.trans hnone
      subst hd
      have h := parse_text hnsp hid hjson hread hc hc'.1 hrange (by simpa using hbinary)
      simpa [hexpected] using h
    · have hd : data ≠ [] := fun hd => hsome (hall.trans hd)
      have hpos : 0 < data.length := List.length_pos_of_ne_nil hd
      have h := parse_binary_text hnsp hid hjson hread (by omega) hc hc' hrange
        (hbinary.mpr hd)
      obtain ⟨w, hparse, hawaits⟩ := h
      refine ⟨w, ?_, ?_⟩
      · simpa [hpos] using hparse
      · rw [hexpected]
        exact hall.symm ▸ hawaits
  by_cases hd : data = [] <;> cases isAck
  · exact hcases typeEvent '2' (by simp [hd]; rfl) (by decide) (by decide) (by decide)
      (by decide) (by simp [hd]; decide)
  · exact hcases typeAck '3' (by simp [hd]; rfl) (by decide) (by decide) (by decide)
      (by decide) (by simp [hd]; decide)
  · exact hcases typeBinaryEvent '5' (by simp [hd]; rfl) (by decide) (by decide) (by decide)
      (by decide) (by simp [hd]; decide)
  · exact hcases typeBinaryAck '6' (by simp [hd]; rfl) (by decide) (by decide) (by decide)
      (by decide) (by simp [hd]; decide)

/-- Connect and disconnect packets. -/
theorem encodes_ofType [LexicalCast] (dtoa : Float → List Char) {nsp : List Char} {type : ℤ}
    {c : Char}
    (hnsp : IsNamespace nsp) (htype : settle type false = type) (hwrite : writeInt type = [c])
    (hc : charValue c - '0'.toNat = type) (hc' : c ≠ ',')
    (hrange : typeConnect ≤ type ∧ type ≤ typeBinaryAck) (hbinary : isBinaryType type = false) :
    ∃ type' text, Encodes dtoa (ofType type nsp .nullptr) type' text := by
  have hne : nsp ≠ [] := by
    rintro rfl
    exact absurd hnsp.slash (by simp)
  have hheader : header type 0 nsp (-1) false = c :: (if nsp = ['/'] then [] else nsp) := by
    by_cases hroot : nsp = ['/'] <;> simp [header, hwrite, hne, hroot]
  refine ⟨type, '4' :: c :: (if nsp = ['/'] then [] else nsp), ⟨?_, ?_, rfl, fun _ => ?_, ?_⟩⟩
  · simp [PacketManager.encode, accept, ofType, acceptOptional, htype, hheader,
      Message.attachments]
    decide
  · simp [hbinary, ofType, Message.attachments]
  · rw [parse_nsp_text hnsp hc hc' hrange hbinary]
    rfl
  · simp [ofType, Message.attachments]

/-- **Encoding and parsing** of every packet that the client builds. -/
theorem encodes_of_sendable [LexicalCast] [LawfulLexicalCast] (dtoa : Float → List Char)
    {p : Packet} (h : Sendable p) :
    ∃ type text, Encodes dtoa p type text := by
  cases h with
  | event hnsp hms hid hdata => exact encodes_ofMessage dtoa false hnsp hms hid hdata
  | ack hnsp hms hid hdata => exact encodes_ofMessage dtoa true hnsp hms (by omega) hdata
  | connect hnsp =>
      exact encodes_ofType dtoa hnsp (c := '0') (by decide) (by decide) (by decide) (by decide)
        (by decide) (by decide)
  | disconnect hnsp =>
      exact encodes_ofType dtoa hnsp (c := '1') (by decide) (by decide) (by decide) (by decide)
        (by decide) (by decide)

/-- Engine frames are one payload, neither text nor binary, and are read at once. -/
theorem encode_of_engineFrame [LexicalCast] (dtoa : Float → List Char) {p : Packet}
    (h : EngineFrame p) :
    ∃ text, PacketManager.encode dtoa p = some (p, [text]) ∧ isTextMessage text = false ∧
      isBinaryMessage text = false ∧ parse text = some (p.expected p.type, false) := by
  rcases h with rfl | rfl | rfl
  · exact ⟨['2'], rfl, rfl, rfl, rfl⟩
  · exact ⟨['3'], rfl, rfl, rfl, rfl⟩
  · exact ⟨['6'], rfl, rfl, rfl, rfl⟩

end Packet

/-! ### Streams -/

namespace PacketManager

/-- The payloads of a packet, each with the packet that it completes: the last one
completes `q`. -/
def marks (q : Packet) : List (List Char) → List (List Char × Option Packet)
  | [] => []
  | [payload] => [(payload, some q)]
  | payload :: payloads => (payload, none) :: marks q payloads

/-- The payloads of a sequence of packets, each with the packet that it completes. -/
def stream (dtoa : Float → List Char) : List Packet → Option (List (List Char × Option Packet))
  | [] => some []
  | p :: ps => do
      let (encoded, payloads) ← encode dtoa p
      let rest ← stream dtoa ps
      some (marks (p.expected encoded.type) payloads ++ rest)

/-- What may be fed in between: a payload that is no attachment, and that is handed on at
once. It may be a text without attachments or an engine frame, from whomever it is. -/
def Insertable [LexicalCast] (payload : List Char) (q : Packet) : Prop :=
  isBinaryMessage payload = false ∧ Packet.parse payload = some (q, false)

theorem marks_cons_of_ne_nil (q : Packet) (payload : List Char) {payloads : List (List Char)}
    (h : payloads ≠ []) : marks q (payload :: payloads) = (payload, none) :: marks q payloads := by
  cases payloads with
  | nil => exact absurd rfl h
  | cons next rest => rfl

/-- The payloads of a packet complete it once. -/
theorem filterMap_marks (q : Packet) {payloads : List (List Char)} (h : payloads ≠ []) :
    (marks q payloads).filterMap Prod.snd = [q] ∧ (marks q payloads).map Prod.fst = payloads := by
  induction payloads with
  | nil => exact absurd rfl h
  | cons payload payloads ih =>
      cases payloads with
      | nil => exact ⟨rfl, rfl⟩
      | cons next rest =>
          obtain ⟨hsnd, hfst⟩ := ih (List.cons_ne_nil next rest)
          constructor
          · rw [marks, List.filterMap_cons_none rfl, hsnd]
            simp
          · rw [marks, List.map_cons, hfst]
            simp

/-- The packets that the callback is to see for `ps`, one for each. -/
def callbacks (dtoa : Float → List Char) (ps : List Packet) : Option (List Packet) :=
  ps.mapM fun p => (encode dtoa p).map fun (encoded, _) => p.expected encoded.type

/-- What the manager holds while the payloads `main` of whole packets are still to come:
nothing, or the packet that the next payloads complete. -/
inductive Expecting (dtoa : Float → List Char) :
    PacketManager → List (List Char × Option Packet) → Prop
  | idle {ps : List Packet} {main : List (List Char × Option Packet)}
      (hps : ∀ p ∈ ps, Packet.Sendable p) (h : stream dtoa ps = some main) :
      Expecting dtoa fresh main
  | waiting {w q : Packet} {data : List Buffer} {ps : List Packet}
      {main : List (List Char × Option Packet)} (hw : Packet.Awaits w data q) (hdata : data ≠ [])
      (hps : ∀ p ∈ ps, Packet.Sendable p) (h : stream dtoa ps = some main) :
      Expecting dtoa ⟨some w⟩ (marks q (data.map (binaryFrame :: ·)) ++ main)

/-- Nothing is awaited at the end. -/
theorem Expecting.eq_fresh {dtoa : Float → List Char} {m : PacketManager}
    (h : Expecting dtoa m []) : m = fresh := by
  generalize hall : ([] : List (List Char × Option Packet)) = all at h
  cases h with
  | idle => rfl
  | @waiting w q data ps rest hw hdata hps hrest =>
      cases data with
      | nil => exact absurd rfl hdata
      | cons d data => cases data <;> exact absurd hall (by simp [marks])

section Streams

variable [LexicalCast]

/-- An inserted payload is handed on at once, whatever the manager holds. -/
theorem Insertable.putPayload {payload : List Char} {q : Packet} (h : Insertable payload q)
    (m : PacketManager) : m.putPayload payload = some (m, some q) := by
  rw [PacketManager.putPayload]
  by_cases htext : isTextMessage payload = true
  · rw [if_pos htext, h.2]
    rfl
  · rw [if_neg htext, if_neg (by simp [h.1]), h.2]
    rfl

/-- The packets of the client without attachments can be inserted. -/
theorem insertable_of_encodes {dtoa : Float → List Char} {p : Packet} {type : ℤ}
    {text : List Char} (h : Packet.Encodes dtoa p type text)
    (hnone : p.message.attachments = []) : Insertable text (p.expected type) := by
  refine ⟨?_, h.complete hnone⟩
  have hfirst : text.head? = some '4' := of_decide_eq_true h.isText
  rw [isBinaryMessage, hfirst]
  decide

/-- So can the frames of the engine. -/
theorem insertable_of_engineFrame (dtoa : Float → List Char) {p : Packet}
    (h : Packet.EngineFrame p) :
    ∃ text, encode dtoa p = some (p, [text]) ∧ Insertable text (p.expected p.type) := by
  obtain ⟨text, hencode, -, hbinary, hparse⟩ := Packet.encode_of_engineFrame dtoa h
  exact ⟨text, hencode, hbinary, hparse⟩

variable [LawfulLexicalCast]

theorem exists_stream (dtoa : Float → List Char) {ps : List Packet}
    (hps : ∀ p ∈ ps, Packet.Sendable p) :
    ∃ main, stream dtoa ps = some main ∧
      callbacks dtoa ps = some (main.filterMap Prod.snd) := by
  induction ps with
  | nil => exact ⟨[], rfl, rfl⟩
  | cons p ps ih =>
      obtain ⟨main, hmain, hcallbacks⟩ := ih fun p hp => hps p (List.mem_cons_of_mem _ hp)
      obtain ⟨type, text, henc⟩ := Packet.encodes_of_sendable dtoa (hps p List.mem_cons_self)
      refine ⟨_, by rw [stream, henc.encode, hmain]; rfl, ?_⟩
      rw [callbacks] at hcallbacks ⊢
      rw [List.mapM_cons, henc.encode, hcallbacks, List.filterMap_append,
        (filterMap_marks _ (List.cons_ne_nil _ _)).1]
      rfl

/-- **The step lemma.** The next payload completes what it is marked with. -/
theorem Expecting.putPayload {dtoa : Float → List Char} {m : PacketManager}
    {b : List Char × Option Packet} {main : List (List Char × Option Packet)}
    (h : Expecting dtoa m (b :: main)) :
    ∃ m', m.putPayload b.1 = some (m', b.2) ∧ Expecting dtoa m' main := by
  generalize hall : b :: main = all at h
  cases h with
  | @idle ps _ hps hstream =>
      cases ps with
      | nil =>
          obtain rfl := Option.some.inj hstream
          exact absurd hall (List.cons_ne_nil b main)
      | cons p ps =>
          have hp := hps p List.mem_cons_self
          have hps := fun p hp => hps p (List.mem_cons_of_mem _ hp)
          obtain ⟨rest, hrest, -⟩ := exists_stream dtoa hps
          obtain ⟨type, text, henc⟩ := Packet.encodes_of_sendable dtoa hp
          rw [stream, henc.encode, hrest] at hstream
          obtain rfl := Option.some.inj hstream
          by_cases hdata : p.message.attachments = []
          · rw [hdata] at hall
            obtain ⟨rfl, rfl⟩ := List.cons.inj hall
            refine ⟨fresh, ?_, idle hps hrest⟩
            rw [PacketManager.putPayload, if_pos henc.isText, henc.complete hdata]
            rfl
          · have hne : p.message.attachments.map (binaryFrame :: ·) ≠ [] := by simpa using hdata
            simp only [marks_cons_of_ne_nil _ _ hne, List.cons_append] at hall
            obtain ⟨rfl, rfl⟩ := List.cons.inj hall
            obtain ⟨w, hparse, hawaits⟩ := henc.awaits hdata
            refine ⟨⟨some w⟩, ?_, waiting hawaits hdata hps hrest⟩
            rw [PacketManager.putPayload, if_pos henc.isText, hparse]
            rfl
  | @waiting w q data ps rest hw hdata hps hrest =>
      cases data with
      | nil => exact absurd rfl hdata
      | cons d data =>
          have hbinary : isTextMessage (binaryFrame :: d) = false := rfl
          have hbinary' : isBinaryMessage (binaryFrame :: d) = true := rfl
          by_cases hlast : data = []
          · subst hlast
            obtain ⟨rfl, rfl⟩ := List.cons.inj hall
            refine ⟨fresh, ?_, idle hps hrest⟩
            rw [PacketManager.putPayload, if_neg (by simp [hbinary]), if_pos hbinary']
            simp only [hw.parseBuffer.1 rfl, Option.map_some]
            rfl
          · have hne : data.map (binaryFrame :: ·) ≠ [] := by simpa using hlast
            rw [List.map_cons, marks_cons_of_ne_nil _ _ hne, List.cons_append] at hall
            obtain ⟨rfl, rfl⟩ := List.cons.inj hall
            obtain ⟨w', hparse, hawaits⟩ := hw.parseBuffer.2 hlast
            refine ⟨⟨some w'⟩, ?_, waiting hawaits hlast hps hrest⟩
            rw [PacketManager.putPayload, if_neg (by simp [hbinary]), if_pos hbinary']
            simp only [hparse, Option.map_some]
            rfl

/-- **The run lemma.** Whatever is inserted, the marked packets are completed. -/
theorem run_interleaved {dtoa : Float → List Char}
    {main inserted fed : List (List Char × Option Packet)} (hfed : Interleaves main inserted fed)
    (hinserted : ∀ b ∈ inserted, ∀ m : PacketManager, m.putPayload b.1 = some (m, b.2)) :
    ∀ {m : PacketManager}, Expecting dtoa m main →
      m.run (fed.map Prod.fst) = some (fresh, fed.filterMap Prod.snd) := by
  induction hfed with
  | nil =>
      intro m h
      rw [h.eq_fresh]
      rfl
  | @left b xs ys zs _ ih =>
      intro m h
      obtain ⟨m', hput, hnext⟩ := h.putPayload
      have hrun := ih hinserted hnext
      obtain ⟨payload, q⟩ := b
      rw [List.map_cons, run, hput]
      simp only [bind, Option.bind_some, hrun]
      cases q <;> rfl
  | @right b xs ys zs _ ih =>
      intro m h
      have hput := hinserted b List.mem_cons_self m
      have hrun := ih (fun b hb => hinserted b (List.mem_cons_of_mem _ hb)) h
      obtain ⟨payload, q⟩ := b
      rw [List.map_cons, run, hput]
      simp only [bind, Option.bind_some, hrun]
      cases q <;> rfl

/-- **The packet stream round trip.** The packets `ps` of the client can be encoded, each to
one payload or more, with a type that is a binary variant exactly for the messages with a
binary. However their payloads and those of `inserted` are interleaved, a fresh manager
hands on each expected packet when its last payload arrives: the callback is called once for
each packet of `ps` and for each that is inserted. -/
theorem run_stream (dtoa : Float → List Char) {ps : List Packet}
    {inserted : List (List Char × Packet)} (hps : ∀ p ∈ ps, Packet.Sendable p)
    (hinserted : ∀ b ∈ inserted, Insertable b.1 b.2) :
    ∃ main, stream dtoa ps = some main ∧
      callbacks dtoa ps = some (main.filterMap Prod.snd) ∧
      (∀ fed, Interleaves main (inserted.map fun b => (b.1, some b.2)) fed →
        fresh.run (fed.map Prod.fst) = some (fresh, fed.filterMap Prod.snd) ∧
          Interleaves (main.filterMap Prod.snd) (inserted.map Prod.snd)
            (fed.filterMap Prod.snd)) ∧
      ∀ p ∈ ps, ∃ encoded payloads, encode dtoa p = some (encoded, payloads) ∧
        payloads ≠ [] ∧
        (Packet.isBinaryType encoded.type = true ↔ p.message.attachments ≠ []) := by
  obtain ⟨main, hmain, hcallbacks⟩ := exists_stream dtoa hps
  have hput : ∀ b ∈ inserted.map fun b => (b.1, some b.2), ∀ m : PacketManager,
      m.putPayload b.1 = some (m, b.2) := by
    intro b hb m
    obtain ⟨b, hmem, rfl⟩ := List.mem_map.mp hb
    exact (hinserted b hmem).putPayload m
  refine ⟨main, hmain, hcallbacks, fun fed hfed => ⟨?_, ?_⟩, fun p hp => ?_⟩
  · exact run_interleaved hfed hput (Expecting.idle hps hmain)
  · have hsnd : (inserted.map fun b => (b.1, some b.2)).filterMap Prod.snd =
        inserted.map Prod.snd := by
      rw [List.filterMap_map, ← List.filterMap_eq_map]
      rfl
    rw [← hsnd]
    exact hfed.filterMap Prod.snd
  · obtain ⟨type, text, henc⟩ := Packet.encodes_of_sendable dtoa (hps p hp)
    exact ⟨_, _, henc.encode, List.cons_ne_nil _ _, henc.settled⟩

end Streams

/-- An event with one binary, in a namespace and with an id. -/
def binaryEvent : Packet :=
  Packet.ofMessage ['/', 'a'] (.array [.string ['e'], .binary ['\x01']]) 3 false

/-- A ping and an error packet of the server, between the header of a binary event and its
attachment. -/
theorem run_stream_example :
    @run decimalCast fresh [['4', '5', '1', '-', '/', 'a', ',', '3', '[', '"', 'e', '"', ',', '{',
        '"', '_', 'p', 'l', 'a', 'c', 'e', 'h', 'o', 'l', 'd', 'e', 'r', '"', ':', 't', 'r', 'u',
        'e', ',', '"', 'n', 'u', 'm', '"', ':', '0', '}', ']'], ['2'],
        ['4', '4', '"', 'e', 'r', 'r', '"'], ['\x04', '\x01']] =
      some (fresh, [(Packet.ofFrame Packet.framePing).expected Packet.typeUndetermined,
        { Packet.fresh 4 with
          type := Packet.typeError, nsp := ['/'], message := .string ['e', 'r', 'r'] },
        binaryEvent.expected Packet.typeBinaryEvent]) := by
  obtain ⟨main, hmain, -, hrun, -⟩ :=
    @run_stream decimalCast lawful_decimalCast (fun _ => []) [binaryEvent]
      [(['2'], (Packet.ofFrame Packet.framePing).expected Packet.typeUndetermined),
        (['4', '4', '"', 'e', 'r', 'r', '"'],
          { Packet.fresh 4 with
            type := Packet.typeError, nsp := ['/'], message := .string ['e', 'r', 'r'] })]
      (by
        intro p hp
        obtain rfl := List.mem_singleton.mp hp
        exact Packet.Sendable.event ⟨by decide, by decide⟩
          (by simp [Message.PlainElements, Message.Plain]) (by omega) (by decide))
      (by
        intro b hb
        rcases List.mem_cons.mp hb with rfl | hb
        · exact ⟨rfl, rfl⟩
        · obtain rfl := List.mem_singleton.mp hb
          exact ⟨rfl, rfl⟩)
  obtain rfl := Option.some.inj hmain
  exact (hrun _ (Interleaves.left (Interleaves.right (Interleaves.right
    (Interleaves.left Interleaves.nil))))).1

end PacketManager

end MahjongAI
