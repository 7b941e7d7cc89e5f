import Mathlib.Data.Nat.Notation

/-!
# Percent-Encoding

A percent-encoded text stands for a sequence of bytes: a letter or a digit for itself, and
`%` followed by two hexadecimal digits for the byte of that value. `Encoded` is the grammar
of the texts in which everything else is escaped, `decode` reads any text back as bytes.

## Main results

* `encoded_plain_iff`, `encoded_escape_iff`: the grammar, one character or escape at a time.
* `decode_plain`, `decode_escape`: the decoder in front of any rest.
-/

namespace Percent

/-- An ASCII letter or digit. -/
def isAlphanumeric (c : Char) : Bool :=
  ('a' ≤ c && c ≤ 'z') || ('A' ≤ c && c ≤ 'Z') || ('0' ≤ c && c ≤ '9')

/-- The value of a hexadecimal digit. -/
def hexValue (c : Char) : Option ℕ :=
  if '0' ≤ c ∧ c ≤ '9' then some (c.toNat - 48)
  else if 'a' ≤ c ∧ c ≤ 'f' then some (c.toNat - 87)
  else if 'A' ≤ c ∧ c ≤ 'F' then some (c.toNat - 55)
  else none

/-- The texts of letters, digits and escapes of two hexadecimal digits. -/
inductive Encoded : List Char → Prop
  | nil : Encoded []
  | plain {c : Char} {rest : List Char} :
      isAlphanumeric c = true → Encoded rest → Encoded (c :: rest)
  | escape {h l : Char} {rest : List Char} :
      (hexValue h).isSome → (hexValue l).isSome → Encoded rest → Encoded ('%' :: h :: l :: rest)

/-- Percent-decoding. -/
def decode : List Char → Option (List UInt8)
  | [] => some []
  | '%' :: h :: l :: rest =>
      match hexValue h, hexValue l with
      | some a, some b => (decode rest).map fun bytes => UInt8.ofNat (16 * a + b) :: bytes
      | _, _ => none
  | c :: rest =>
      if c = '%' then none else (decode rest).map fun bytes => UInt8.ofNat c.toNat :: bytes

theorem encoded_plain_iff {c : Char} {rest : List Char} (hc : isAlphanumeric c = true) :
    Encoded (c :: rest) ↔ Encoded rest := by
  constructor
  · intro h
    cases h with
    | plain _ hrest => exact hrest
    | escape _ _ _ => exact absurd hc (by decide)
  · exact Encoded.plain hc

theorem encoded_escape_iff {h l : Char} {rest : List Char} :
    Encoded ('%' :: h :: l :: rest) ↔
      (hexValue h).isSome ∧ (hexValue l).isSome ∧ Encoded rest := by
  constructor
  · intro hencoded
    cases hencoded with
    | plain hc _ => exact absurd hc (by decide)
    | escape hh hl hrest => exact ⟨hh, hl, hrest⟩
  · rintro ⟨hh, hl, hrest⟩
    exact Encoded.escape hh hl hrest

theorem decode_plain {c : Char} (hc : c ≠ '%') (rest : List Char) :
    decode (c :: rest) = (decode rest).map fun bytes => UInt8.ofNat c.toNat :: bytes := by
  rw [decode, if_neg hc]
  rintro h l rest' rfl
  exact fun _ => hc rfl

theorem decode_escape {h l : Char} {a b : ℕ} (hh : hexValue h = some a)
    (hl : hexValue l = some b) (rest : List Char) :
    decode ('%' :: h :: l :: rest) =
      (decode rest).map fun bytes => UInt8.ofNat (16 * a + b) :: bytes := by
  rw [decode, hh, hl]

end Percent
