import Mathlib.Data.Char
import Mathlib.Data.List.Lex
import MahjongAI.JsonRoundTrip

/-!
# Message Trees

A `message::ptr` is a null pointer or points to a message, whose arrays and objects hold
further pointers; an object is a `std::map`, a list sorted by its keys. `acceptMessage`
turns a tree into a JSON value and moves the binaries into a list of attachments, leaving
numbered placeholders; `fromJson` goes back. Both are partial: the first dereferences
every pointer, the second reads a placeholder through `rapidjson` accessors that assert
the type they read.

## Main results

* `acceptMessage_plain`: a tree of integers, strings, booleans, nulls, binaries, arrays
  and objects is accepted, its attachments in the order of the traversal.
* `fromJson_of_accepted`: from the value and the attachments comes the same tree.
-/

open MahjongAI.Json

namespace MahjongAI

/-- A binary payload or attachment. -/
abbrev Buffer := List Char

/-- A `message::ptr`. -/
inductive Message where
  | nullptr
  | int (n : ℤ)
  | double (d : Float)
  | string (s : List Char)
  | binary (data : Buffer)
  | array (elements : List Message)
  | object (members : List (List Char × Message))
  | bool (b : Bool)
  | null

/-- `kBIN_PLACE_HOLDER`. -/
def placeholder : List Char :=
  ['_', 'p', 'l', 'a', 'c', 'e', 'h', 'o', 'l', 'd', 'e', 'r']

/-- The member of a placeholder that numbers its attachment. -/
def placeholderNum : List Char :=
  ['n', 'u', 'm']

/-- The first byte of a binary payload, `packet::frame_message`. -/
def binaryFrame : Char := '\x04'

mutual

/-- `accept_message`, with the attachments collected so far. -/
def acceptMessage : Message → List Buffer → Option (Value × List Buffer)
  | .nullptr, _ => none
  | .int n, buffers => some (.number n, buffers)
  | .double d, buffers => some (.double d, buffers)
  | .string s, buffers => some (.string s, buffers)
  | .bool b, buffers => some (.bool b, buffers)
  | .null, buffers => some (.null, buffers)
  | .binary data, buffers =>
      some (.object [(placeholder, .bool true), (placeholderNum, .number (wrap32 buffers.length))],
        buffers ++ [binaryFrame :: data])
  | .array ms, buffers => (acceptElements ms buffers).map fun (vs, buffers) => (.array vs, buffers)
  | .object ms, buffers => (acceptMembers ms buffers).map fun (vs, buffers) => (.object vs, buffers)

/-- `accept_array_message`. -/
def acceptElements : List Message → List Buffer → Option (List Value × List Buffer)
  | [], buffers => some ([], buffers)
  | m :: ms, buffers => do
      let (v, buffers) ← acceptMessage m buffers
      let (vs, buffers) ← acceptElements ms buffers
      some (v :: vs, buffers)

/-- `accept_object_message`. -/
def acceptMembers : List (List Char × Message) → List Buffer →
    Option (List (List Char × Value) × List Buffer)
  | [], buffers => some ([], buffers)
  | (name, m) :: ms, buffers => do
      let (v, buffers) ← acceptMessage m buffers
      let (vs, buffers) ← acceptMembers ms buffers
      some ((name, v) :: vs, buffers)

end

/-- `map[key] = value` on a sorted list. -/
def mapInsert (key : List Char) (m : Message) :
    List (List Char × Message) → List (List Char × Message)
  | [] => [(key, m)]
  | (key', m') :: map =>
      if key = key' then (key, m) :: map
      else if key < key' then (key, m) :: (key', m') :: map
      else (key', m') :: mapInsert key m map

section FromJson

variable (buffers : List Buffer)

/-- A placeholder: the attachment it numbers, or a null pointer. -/
def fromPlaceholder (members : List (List Char × Value)) : Option Message := do
  let num ← (← findMember placeholderNum members).getInt
  if 0 ≤ num ∧ num < wrap32 buffers.length then some (.binary (buffers.getD num.toNat []))
  else some .nullptr

mutual

/-- `from_json`. Integers beyond `int64_t` give a null pointer. -/
def fromJson : Value → Option Message
  | .null => some .null
  | .bool b => some (.bool b)
  | .number n => some (if (Value.number n).isInt64 then .int n else .nullptr)
  | .double d => some (.double d)
  | .string s => some (.string s)
  | .array vs => (fromElements vs).map .array
  | .object ms =>
      match findMember placeholder ms with
      | none => (fromMembers ms []).map .object
      | some v =>
          match v.getBool with
          | none => none
          | some true => fromPlaceholder buffers ms
          | some false => (fromMembers ms []).map .object

/-- The elements of an array. -/
def fromElements : List Value → Option (List Message)
  | [] => some []
  | v :: vs => do
      let m ← fromJson v
      let ms ← fromElements vs
      some (m :: ms)

/-- The members of an object, put into the map one after the other. -/
def fromMembers : List (List Char × Value) → List (List Char × Message) →
    Option (List (List Char × Message))
  | [], map => some map
  | (name, v) :: vs, map => do
      let m ← fromJson v
      fromMembers vs (mapInsert name m map)

end

end FromJson

/-! ### Plain trees -/

namespace Message

mutual

/-- A tree without null pointers and doubles, whose integers are `int64_t` values and
whose objects are maps without a placeholder key. -/
def Plain : Message → Prop
  | nullptr | double _ => False
  | int n => -2 ^ 63 ≤ n ∧ n < 2 ^ 63
  | array ms => PlainElements ms
  | object ms =>
      (ms.map Prod.fst).Pairwise (· < ·) ∧ placeholder ∉ ms.map Prod.fst ∧ PlainMembers ms
  | string _ | binary _ | bool _ | null => True

def PlainElements : List Message → Prop
  | [] => True
  | m :: ms => m.Plain ∧ PlainElements ms

def PlainMembers : List (List Char × Message) → Prop
  | [] => True
  | (_, m) :: ms => m.Plain ∧ PlainMembers ms

end

mutual

/-- The binaries of a tree, in the order of the traversal. -/
def attachments : Message → List Buffer
  | binary data => [data]
  | array ms => attachmentsElements ms
  | object ms => attachmentsMembers ms
  | nullptr | int _ | double _ | string _ | bool _ | null => []

def attachmentsElements : List Message → List Buffer
  | [] => []
  | m :: ms => m.attachments ++ attachmentsElements ms

def attachmentsMembers : List (List Char × Message) → List Buffer
  | [] => []
  | (_, m) :: ms => m.attachments ++ attachmentsMembers ms

end

end Message

theorem mapInsert_of_forall_lt {key : List Char} (m : Message)
    {map : List (List Char × Message)} (h : ∀ k ∈ map.map Prod.fst, k < key) :
    mapInsert key m map = map ++ [(key, m)] := by
  induction map with
  | nil => rfl
  | cons entry map ih =>
      obtain ⟨key', m'⟩ := entry
      have hlt : key' < key := h key' (by simp)
      rw [mapInsert, if_neg (ne_of_gt hlt), if_neg (lt_asymm hlt),
        ih fun k hk => h k (by simp only [List.map_cons, List.mem_cons]; exact Or.inr hk)]
      rfl

theorem findMember_eq_none {name : List Char} {members : List (List Char × Value)}
    (h : name ∉ members.map Prod.fst) : findMember name members = none := by
  rw [findMember, Option.map_eq_none_iff, List.find?_eq_none]
  intro entry hentry hname
  exact h (List.mem_map.mpr ⟨entry, hentry, of_decide_eq_true hname⟩)

theorem wrap32_of_lt {n : ℕ} (h : n < 2 ^ 31) : wrap32 n = n := by
  rw [wrap32]
  omega

/-! ### The round trip -/

/-- What accepting a tree with attachments `data` to the value `v` has to achieve: the
attachments are appended, and are found again wherever the list ends up. -/
def Accepted (buffers data : List Buffer) (v : Value) (m : Message) : Prop :=
  v.Plain ∧ ∀ before after : List Buffer, before.length = buffers.length →
    (before ++ (data ++ after)).length < 2 ^ 31 →
      fromJson (before ++ (data ++ after)) v = some m

theorem isInt64_of_plain {n : ℤ} (h : -2 ^ 63 ≤ n ∧ n < 2 ^ 63) :
    (Value.number n).isInt64 = true :=
  decide_eq_true h

/-- A placeholder that numbers an attachment gives it back. -/
theorem fromPlaceholder_of_lt {buffers : List Buffer} {members : List (List Char × Value)}
    {n : ℤ} {k : ℕ} (hmember : findMember placeholderNum members = some (.number n))
    (hn : n = k) (hk : k < buffers.length) (hlen : buffers.length < 2 ^ 31) :
    fromPlaceholder buffers members = some (.binary (buffers.getD k [])) := by
  have hint : (Value.number n).getInt = some (k : ℤ) := by
    rw [hn, Value.getInt, if_pos (by omega)]
  rw [fromPlaceholder, hmember]
  simp only [bind, Option.bind, hint]
  rw [wrap32_of_lt hlen, if_pos (by omega), Int.toNat_natCast]

/-- A binary is numbered, and found under its number. -/
theorem accepted_binary {data : Buffer} {buffers : List Buffer} (h : buffers.length < 2 ^ 31) :
    Accepted buffers [data] (.object [(placeholder, .bool true),
      (placeholderNum, .number (wrap32 buffers.length))]) (.binary data) := by
  have hwrap := wrap32_of_lt h
  refine ⟨?_, fun before after hbefore hlen => ?_⟩
  · simp only [Value.Plain, Value.PlainMembers, hwrap, true_and, and_true]
    omega
  · have hplace : findMember placeholder [(placeholder, .bool true),
        (placeholderNum, .number (wrap32 buffers.length))] = some (.bool true) := by
      simp [findMember]
    have hnum : findMember placeholderNum [(placeholder, .bool true),
        (placeholderNum, .number (wrap32 buffers.length))] =
          some (.number (wrap32 buffers.length)) := by
      have hne : placeholder ≠ placeholderNum := by decide
      simp [findMember, hne]
    have hk : buffers.length < (before ++ ([data] ++ after)).length := by
      simp only [List.length_append, List.length_cons]
      omega
    rw [fromJson, hplace]
    change fromPlaceholder _ _ = _
    rw [fromPlaceholder_of_lt hnum hwrap hk hlen, ← hbefore]
    simp

mutual

/-- **Plain trees** are accepted, and come back. -/
theorem acceptMessage_plain : (m : Message) → m.Plain → ∀ buffers : List Buffer,
    (buffers ++ m.attachments).length < 2 ^ 31 →
      ∃ v, acceptMessage m buffers =
          some (v, buffers ++ m.attachments.map (binaryFrame :: ·)) ∧
        Accepted buffers m.attachments v m
  | .nullptr, hm, _, _ => absurd hm (by simp [Message.Plain])
  | .double _, hm, _, _ => absurd hm (by simp [Message.Plain])
  | .int n, hm, buffers, _ => by
      rw [Message.Plain] at hm
      refine ⟨.number n, by simp [acceptMessage, Message.attachments], ?_, ?_⟩
      · rwa [Value.Plain]
      · intro before after _ _
        rw [fromJson, isInt64_of_plain hm, if_pos rfl]
  | .string s, _, buffers, _ => by
      refine ⟨.string s, by simp [acceptMessage, Message.attachments], ?_, ?_⟩
      · simp [Value.Plain]
      · intro before after _ _
        rw [fromJson]
  | .bool b, _, buffers, _ => by
      refine ⟨.bool b, by simp [acceptMessage, Message.attachments], ?_, ?_⟩
      · simp [Value.Plain]
      · intro before after _ _
        rw [fromJson]
  | .null, _, buffers, _ => by
      refine ⟨.null, by simp [acceptMessage, Message.attachments], ?_, ?_⟩
      · simp [Value.Plain]
      · intro before after _ _
        rw [fromJson]
  | .binary data, _, buffers, hlen => by
      rw [Message.attachments] at hlen ⊢
      refine ⟨_, by rw [acceptMessage]; rfl, accepted_binary ?_⟩
      simp only [List.length_append, List.length_cons] at hlen
      omega
  | .array ms, hm, buffers, hlen => by
      rw [Message.Plain] at hm
      rw [Message.attachments] at hlen ⊢
      obtain ⟨vs, haccept, hplain, hfrom⟩ := acceptElements_plain ms hm buffers hlen
      refine ⟨.array vs, by rw [acceptMessage, haccept]; rfl, ?_, ?_⟩
      · rwa [Value.Plain]
      · intro before after hbefore hall
        rw [fromJson, hfrom before after hbefore hall]
        rfl
  | .object ms, hm, buffers, hlen => by
      rw [Message.Plain] at hm
      rw [Message.attachments] at hlen ⊢
      obtain ⟨hsorted, hplace, hm⟩ := hm
      obtain ⟨vs, haccept, hplain, hnames, hfrom⟩ := acceptMembers_plain ms hm buffers hlen
      refine ⟨.object vs, by rw [acceptMessage, haccept]; rfl, ?_, ?_⟩
      · rwa [Value.Plain]
      · intro before after hbefore hall
        rw [fromJson, findMember_eq_none (by rwa [hnames])]
        simp only
        rw [hfrom before after hbefore hall [] (by simpa using hsorted)]
        rfl

theorem acceptElements_plain : (ms : List Message) → Message.PlainElements ms →
    ∀ buffers : List Buffer, (buffers ++ Message.attachmentsElements ms).length < 2 ^ 31 →
      ∃ vs, acceptElements ms buffers =
          some (vs, buffers ++ (Message.attachmentsElements ms).map (binaryFrame :: ·)) ∧
        Value.PlainElements vs ∧
        ∀ before after : List Buffer, before.length = buffers.length →
          (before ++ (Message.attachmentsElements ms ++ after)).length < 2 ^ 31 →
            fromElements (before ++ (Message.attachmentsElements ms ++ after)) vs = some ms
  | [], _, buffers, _ => by
      refine ⟨[], by simp [acceptElements, Message.attachmentsElements], ?_, ?_⟩
      · rw [Value.PlainElements]
        trivial
      · intro before after _ _
        rw [fromElements]
  | m :: ms, hm, buffers, hlen => by
      rw [Message.PlainElements] at hm
      rw [Message.attachmentsElements] at hlen ⊢
      simp only [List.length_append] at hlen
      obtain ⟨v, haccept, hplain, hfrom⟩ := acceptMessage_plain m hm.1 buffers
        (by simp only [List.length_append]; omega)
      obtain ⟨vs, haccepts, hplains, hfroms⟩ := acceptElements_plain ms hm.2
        (buffers ++ m.attachments.map (binaryFrame :: ·))
        (by simp only [List.length_append, List.length_map]; omega)
      refine ⟨v :: vs, ?_, ?_, ?_⟩
      · simp only [acceptElements, haccept, haccepts, bind, Option.bind, List.map_append,
          List.append_assoc]
      · rw [Value.PlainElements]
        exact ⟨hplain, hplains⟩
      · intro before after hbefore hall
        have hfirst := hfrom before (Message.attachmentsElements ms ++ after) hbefore
          (by simpa only [List.append_assoc] using hall)
        have hrest := hfroms (before ++ m.attachments) after
          (by simp only [List.length_append, List.length_map, hbefore])
          (by simpa only [List.append_assoc] using hall)
        simp only [List.append_assoc] at hfirst hrest ⊢
        simp only [fromElements, hfirst, hrest, bind, Option.bind]

theorem acceptMembers_plain : (ms : List (List Char × Message)) → Message.PlainMembers ms →
    ∀ buffers : List Buffer, (buffers ++ Message.attachmentsMembers ms).length < 2 ^ 31 →
      ∃ vs, acceptMembers ms buffers =
          some (vs, buffers ++ (Message.attachmentsMembers ms).map (binaryFrame :: ·)) ∧
        Value.PlainMembers vs ∧ vs.map Prod.fst = ms.map Prod.fst ∧
        ∀ before after : List Buffer, before.length = buffers.length →
          (before ++ (Message.attachmentsMembers ms ++ after)).length < 2 ^ 31 →
            ∀ map : List (List Char × Message),
              ((map ++ ms).map Prod.fst).Pairwise (· < ·) →
                fromMembers (before ++ (Message.attachmentsMembers ms ++ after)) vs map =
                  some (map ++ ms)
  | [], _, buffers, _ => by
      refine ⟨[], by simp [acceptMembers, Message.attachmentsMembers], ?_, rfl, ?_⟩
      · rw [Value.PlainMembers]
        trivial
      · intro before after _ _ map _
        rw [fromMembers, List.append_nil]
  | (name, m) :: ms, hm, buffers, hlen => by
      rw [Message.PlainMembers] at hm
      rw [Message.attachmentsMembers] at hlen ⊢
      simp only [List.length_append] at hlen
      obtain ⟨v, haccept, hplain, hfrom⟩ := acceptMessage_plain m hm.1 buffers
        (by simp only [List.length_append]; omega)
      obtain ⟨vs, haccepts, hplains, hnames, hfroms⟩ := acceptMembers_plain ms hm.2
        (buffers ++ m.attachments.map (binaryFrame :: ·))
        (by simp only [List.length_append, List.length_map]; omega)
      refine ⟨(name, v) :: vs, ?_, ?_, ?_, ?_⟩
      · simp only [acceptMembers, haccept, haccepts, bind, Option.bind, List.map_append,
          List.append_assoc]
      · rw [Value.PlainMembers]
        exact ⟨hplain, hplains⟩
      · rw [List.map_cons, List.map_cons, hnames]
      · intro before after hbefore hall map hsorted
        have hfirst := hfrom before (Message.attachmentsMembers ms ++ after) hbefore
          (by simpa only [List.append_assoc] using hall)
        have hbelow : ∀ k ∈ map.map Prod.fst, k < name := by
          intro k hk
          rw [List.map_append, List.pairwise_append] at hsorted
          exact hsorted.2.2 k hk name (by simp)
        have hrest := hfroms (before ++ m.attachments) after
          (by simp only [List.length_append, List.length_map, hbefore])
          (by simpa only [List.append_assoc] using hall) (map ++ [(name, m)])
          (by simpa using hsorted)
        simp only [List.append_assoc] at hfirst hrest ⊢
        simp only [fromMembers, hfirst, bind, Option.bind, mapInsert_of_forall_lt m hbelow, hrest]
        simp

end

end MahjongAI
