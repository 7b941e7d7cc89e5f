import Mathlib.Data.List.Basic
import Mathlib.Tactic.Common
import MahjongAI.PercentEncoding

/-!
# The Query String

`client_impl::encode_query_string` escapes the value of a query parameter through an
`ostringstream` whose manipulators are set once (`hex`) or around each escape
(`uppercase`, `setw(2)`). The stream is modelled with the state that the manipulators
change: the base, the case of the digits and the field width, which every formatted output
uses up. The fill character is never set and stays the space of the default, so a byte with
one hexadecimal digit is written as `%`, a space and the digit.

## Main results

* `encodeQueryString_eq`: every byte is written on its own.
* `roundTrip_iff`: the result is percent-encoded and decodes to the bytes exactly when every
  byte is at least `0x10`; `not_roundTrip`: a line feed is not.
-/

open Percent

namespace MahjongAI

/-- An `ostringstream`: its manipulators and the text written so far. -/
structure OStream where
  hex : Bool
  uppercase : Bool
  width : ℕ
  str : List Char

namespace OStream

/-- A new stream. -/
def new : OStream where
  hex := false
  uppercase := false
  width := 0
  str := []

/-- The fill character of a stream on which none was set. -/
def fill : Char := ' '

/-- A formatted output pads on the left to the field width, and uses it up. -/
def write (ss : OStream) (text : List Char) : OStream :=
  { ss with
    str := ss.str ++ (List.replicate (ss.width - text.length) fill ++ text)
    width := 0 }

/-- The digits of a number in the base and the case of the stream. -/
def digits (ss : OStream) (n : ℕ) : List Char :=
  let text := Nat.toDigits (if ss.hex then 16 else 10) n
  if ss.uppercase then text.map Char.toUpper else text

end OStream

/-- The bytes that `encode_query_string` writes as they are: `a`–`z`, `A`–`Z`, `0`–`9`. -/
def isPlain (c : UInt8) : Bool :=
  (c ≥ 97 && c ≤ 122) || (c ≥ 65 && c ≤ 90) || (c ≥ 48 && c ≤ 57)

/-- One turn of the loop of `encode_query_string`. -/
def encodeByte (ss : OStream) (c : UInt8) : OStream :=
  if isPlain c then ss.write [Char.ofNat c.toNat]
  else
    let ss := ss.write ['%']
    let ss := { ss with uppercase := true }
    let ss := { ss with width := 2 }
    let ss := ss.write (ss.digits c.toNat)
    { ss with uppercase := false }

/-- `client_impl::encode_query_string`. -/
def encodeQueryString (query : List UInt8) : List Char :=
  let ss := { OStream.new with hex := true }
  let ss := query.foldl encodeByte ss
  let ss := { ss with hex := false }
  ss.str

/-! ### One byte -/

/-- What is written for a byte. -/
def byteText (c : UInt8) : List Char :=
  (encodeByte { OStream.new with hex := true } c).str

/-- A turn of the loop leaves the manipulators and appends the text of the byte. -/
theorem encodeByte_eq (text : List Char) (c : UInt8) :
    encodeByte ⟨true, false, 0, text⟩ c = ⟨true, false, 0, text ++ byteText c⟩ := by
  simp only [byteText, encodeByte]
  split
  · simp [OStream.write, OStream.new]
  · simp [OStream.write, OStream.new, OStream.digits]

/-- **Every byte is written on its own.** -/
theorem encodeQueryString_eq (query : List UInt8) :
    encodeQueryString query = query.flatMap byteText := by
  have hfold : ∀ (l : List UInt8) (text : List Char),
      l.foldl encodeByte ⟨true, false, 0, text⟩ = ⟨true, false, 0, text ++ l.flatMap byteText⟩ := by
    intro l text
    induction l generalizing text with
    | nil => simp
    | cons c l ih => rw [List.foldl_cons, encodeByte_eq, ih, List.flatMap_cons, List.append_assoc]
  have h := hfold query []
  rw [List.nil_append] at h
  simp only [encodeQueryString, OStream.new, h]

/-- The upper-case hexadecimal digits. -/
def hexDigit (n : ℕ) : Char :=
  ['0', '1', '2', '3', '4', '5', '6', '7', '8', '9', 'A', 'B', 'C', 'D', 'E', 'F'].getD n '0'

/-- **The text of a byte**: itself, two digits, or a space and one digit. -/
theorem byteText_eq (c : UInt8) :
    byteText c =
      if isPlain c then [Char.ofNat c.toNat]
      else if c.toNat < 16 then ['%', ' ', hexDigit c.toNat]
      else ['%', hexDigit (c.toNat / 16), hexDigit (c.toNat % 16)] := by
  have hall : ∀ n < 256, byteText (UInt8.ofNat n) =
      if isPlain (UInt8.ofNat n) then [Char.ofNat n]
      else if n < 16 then ['%', ' ', hexDigit n]
      else ['%', hexDigit (n / 16), hexDigit (n % 16)] := by
    decide +kernel
  have hc := hall c.toNat c.toNat_lt
  rwa [UInt8.ofNat_toNat] at hc

theorem hexValue_hexDigit : ∀ n < 16, hexValue (hexDigit n) = some n := by
  decide

/-- A byte that is written as it is has the same value as its character. -/
theorem plain_spec {c : UInt8} (h : isPlain c = true) :
    isAlphanumeric (Char.ofNat c.toNat) = true ∧ Char.ofNat c.toNat ≠ '%' ∧
      UInt8.ofNat (Char.ofNat c.toNat).toNat = c ∧ 16 ≤ c.toNat := by
  have hall : ∀ n < 256, isPlain (UInt8.ofNat n) = true →
      isAlphanumeric (Char.ofNat n) = true ∧ Char.ofNat n ≠ '%' ∧
        UInt8.ofNat (Char.ofNat n).toNat = UInt8.ofNat n ∧ 16 ≤ n := by
    decide +kernel
  have hc := hall c.toNat c.toNat_lt
  rw [UInt8.ofNat_toNat] at hc
  exact hc h

/-! ### The whole string -/

/-- Percent-encoded bytes in front of an encoded text: the text of a byte is an escape or a
plain character exactly when the byte has two hexadecimal digits. -/
theorem encoded_byteText_iff (c : UInt8) (rest : List Char) :
    Encoded (byteText c ++ rest) ↔ 16 ≤ c.toNat ∧ Encoded rest := by
  rw [byteText_eq]
  by_cases hplain : isPlain c = true
  · obtain ⟨hc, -, -, h16⟩ := plain_spec hplain
    rw [if_pos hplain, List.singleton_append, encoded_plain_iff hc]
    exact ⟨fun h => ⟨h16, h⟩, And.right⟩
  rw [if_neg hplain]
  by_cases h16 : c.toNat < 16
  · rw [if_pos h16]
    change Encoded ('%' :: ' ' :: hexDigit c.toNat :: rest) ↔ _
    rw [encoded_escape_iff]
    constructor
    · exact fun h => absurd h.1 (by decide)
    · intro h
      omega
  · have hlt := c.toNat_lt
    rw [if_neg h16]
    change Encoded ('%' :: hexDigit (c.toNat / 16) :: hexDigit (c.toNat % 16) :: rest) ↔ _
    rw [encoded_escape_iff, hexValue_hexDigit _ (by omega), hexValue_hexDigit _ (by omega)]
    exact ⟨fun h => ⟨by omega, h.2.2⟩, fun h => ⟨rfl, rfl, h.2⟩⟩

/-- The text of a byte with two digits decodes to the byte. -/
theorem decode_byteText {c : UInt8} (h16 : 16 ≤ c.toNat) (rest : List Char) :
    decode (byteText c ++ rest) = (decode rest).map (c :: ·) := by
  rw [byteText_eq]
  by_cases hplain : isPlain c = true
  · obtain ⟨-, hne, hvalue, -⟩ := plain_spec hplain
    rw [if_pos hplain, List.singleton_append, decode_plain hne, hvalue]
  · have hlt := c.toNat_lt
    rw [if_neg hplain, if_neg (by omega)]
    have hdecode := decode_escape (hexValue_hexDigit (c.toNat / 16) (by omega))
      (hexValue_hexDigit (c.toNat % 16) (by omega)) rest
    rw [show 16 * (c.toNat / 16) + c.toNat % 16 = c.toNat by omega, UInt8.ofNat_toNat] at hdecode
    exact hdecode

/-- **The round trip** of a query value: it is percent-encoded and decodes to itself exactly
when each of its bytes has two hexadecimal digits. -/
theorem roundTrip_iff (q : List UInt8) :
    (Encoded (encodeQueryString q) ∧ decode (encodeQueryString q) = some q) ↔
      ∀ c ∈ q, 16 ≤ c.toNat := by
  rw [encodeQueryString_eq]
  induction q with
  | nil => simp [Encoded.nil, decode]
  | cons c q ih =>
      rw [List.flatMap_cons, encoded_byteText_iff, List.forall_mem_cons, ← ih]
      constructor
      · rintro ⟨⟨h16, hencoded⟩, hdecode⟩
        rw [decode_byteText h16] at hdecode
        obtain ⟨bytes, hbytes, hcons⟩ := Option.map_eq_some_iff.mp hdecode
        rw [(List.cons.inj hcons).2] at hbytes
        exact ⟨h16, hencoded, hbytes⟩
      · rintro ⟨h16, hencoded, hdecode⟩
        refine ⟨⟨h16, hencoded⟩, ?_⟩
        rw [decode_byteText h16, hdecode]
        rfl

/-- Without the condition this fails: a line feed is written with a space. -/
theorem not_roundTrip :
    ¬ ∀ q : List UInt8, Encoded (encodeQueryString q) ∧ decode (encodeQueryString q) = some q := by
  intro h
  have hline : encodeQueryString [10] = ['%', ' ', 'A'] := by decide
  have hencoded := (h [10]).1
  rw [hline, encoded_escape_iff] at hencoded
  exact absurd hencoded.1 (by decide)

end MahjongAI
