import Mathlib.Tactic.IntervalCases
import Mathlib.Tactic.NormNum
import MahjongAI.Json

/-!
# The JSON Text Round Trip

What the writer writes of a value without doubles and within 64 bits, the reader reads
back. The lemmas follow the reader: a written character, a written integer, and then, by
induction on the value, written values, elements and members, each in front of any
further text that cannot go on a number.

## Main results

* `parse_write`: the reader inverts the writer.
* `document_write`: so does the document.
* `parse_ne_fuel`: the reader never runs out of the calls that `parse` allows.
-/

namespace MahjongAI.Json

/-! ### Strings -/

/-- A hexadecimal digit that was written is read back. -/
theorem hexValue_hexDigit {n : ℕ} (h : n < 16) : hexValue (hexDigit n) = some n := by
  interval_cases n <;> decide

/-- The four digits of a written escape are the code of the character. -/
theorem parseHex4_writeChar {c : Char} (h : c.toNat < 32) (s : Stream) :
    parseHex4 4 0 ('0' :: '0' :: hexDigit (c.toNat / 16) :: hexDigit (c.toNat % 16) :: s) =
      .ok (some c.toNat, s) := by
  have hzero : hexValue '0' = some 0 := by decide
  have hhigh := hexValue_hexDigit (n := c.toNat / 16) (by omega)
  have hlow := hexValue_hexDigit (n := c.toNat % 16) (by omega)
  simp only [parseHex4, hzero, hhigh, hlow]
  congr 3
  omega

/-- A control character is one byte of UTF-8. -/
theorem encode_toNat {c : Char} (h : c.toNat < 32) : encode c.toNat = [c] := by
  rw [encode, if_pos (by omega), Char.ofNat_toNat]

/-- What an entry of the writer's escape table says of the character. -/
theorem writerEscape_cases (c : Char) :
    (writerEscape c = none ∧ c ≠ '\\' ∧ c ≠ '"' ∧ 32 ≤ c.toNat) ∨
      (writerEscape c = some 'u' ∧ c.toNat < 32) ∨
      ∃ e, writerEscape c = some e ∧ e ≠ 'u' ∧ readerEscape e = some c := by
  by_cases hescape : c = '\x08' ∨ c = '\t' ∨ c = '\n' ∨ c = '\x0c' ∨ c = '\r' ∨ c = '"' ∨ c = '\\'
  · right; right
    rcases hescape with rfl | rfl | rfl | rfl | rfl | rfl | rfl
    exacts [⟨'b', by decide⟩, ⟨'t', by decide⟩, ⟨'n', by decide⟩, ⟨'f', by decide⟩,
      ⟨'r', by decide⟩, ⟨'"', by decide⟩, ⟨'\\', by decide⟩]
  · simp only [not_or] at hescape
    obtain ⟨h1, h2, h3, h4, h5, h6, h7⟩ := hescape
    rcases Nat.lt_or_ge c.toNat 32 with hlow | hhigh
    · right; left
      exact ⟨by simp [writerEscape, h1, h2, h3, h4, h5, hlow], hlow⟩
    · left
      exact ⟨by simp [writerEscape, h1, h2, h3, h4, h5, h6, h7, Nat.not_lt.mpr hhigh],
        h7, h6, hhigh⟩

/-- **A written character** is read back, and the string goes on. -/
theorem parseChars_writeChar (fuel : ℕ) (c : Char) (s : Stream) :
    parseChars (fuel + 1) false (writeChar c ++ s) =
      (do
        let (out, s) ← parseChars fuel false s
        .ok (c :: out, s)) := by
  rcases writerEscape_cases c with ⟨hnone, hslash, hquote, hlow⟩ | ⟨hu, hlow⟩ | ⟨e, he, hne, hc⟩
  · simp [writeChar, hnone, parseChars, hslash, hquote, Nat.not_lt.mpr hlow]
  · have hread : readerEscape 'u' = none := by decide
    have hsurrogate : ¬(0xD800 ≤ c.toNat ∧ c.toNat ≤ 0xDBFF) := by omega
    simp only [writeChar, hu, if_true, List.cons_append, List.nil_append, parseChars, hread,
      parseUnicode, parseHex4_writeChar hlow, hsurrogate, bind, Except.bind, if_false,
      encode_toNat hlow]
  · simp [writeChar, he, hne, parseChars, hc]

/-- **The characters of a string** are read back, and the reader stops at its end. -/
theorem parseChars_writeString (s : List Char) (rest : Stream) {fuel : ℕ}
    (h : s.length < fuel) :
    parseChars fuel false (s.flatMap writeChar ++ '"' :: rest) = .ok (s, rest) := by
  induction s generalizing fuel with
  | nil =>
      obtain ⟨fuel, rfl⟩ : ∃ k, fuel = k + 1 := ⟨fuel - 1, by simp at h; omega⟩
      simp [parseChars]
  | cons c s ih =>
      obtain ⟨fuel, rfl⟩ : ∃ k, fuel = k + 1 := ⟨fuel - 1, by simp at h; omega⟩
      have hfuel : s.length < fuel := by simp at h; omega
      rw [List.flatMap_cons, List.append_assoc, parseChars_writeChar, ih hfuel]
      rfl

/-- A character is written as one character or more. -/
theorem length_le_flatMap_writeChar (s : List Char) :
    s.length ≤ (s.flatMap writeChar).length := by
  induction s with
  | nil => simp
  | cons c s ih =>
      have hpos : 1 ≤ (writeChar c).length := by
        rw [writeChar]
        split
        · simp
        · split <;> simp
      simp only [List.flatMap_cons, List.length_append, List.length_cons]
      omega

/-- **Strings.** After its opening quote, a written string is read back. -/
theorem parseString_write (s : List Char) (rest : Stream) :
    parseString (s.flatMap writeChar ++ '"' :: rest) = .ok (s, rest) := by
  have hlen := length_le_flatMap_writeChar s
  refine parseChars_writeString s rest ?_
  simp only [List.length_append, List.length_cons]
  omega

/-! ### Integers -/

/-- A character that cannot go on a number. -/
def NumberEnd (c : Char) : Prop :=
  c.isDigit = false ∧ c ≠ '.' ∧ c ≠ 'e' ∧ c ≠ 'E'

/-- A digit is below ten. -/
theorem digitValue_lt {c : Char} (h : c.isDigit = true) : digitValue c < 10 := by
  have hle : c.toNat ≤ 57 := by
    simp only [Char.isDigit, Bool.and_eq_true, decide_eq_true_eq] at h
    exact h.2
  simp only [digitValue]
  change c.toNat - 48 < 10
  omega

/-- A digit loop reads digits whose value stays within the limit. -/
theorem accumulate_digits {limit : ℕ} (ds : List Char) (hds : ∀ d ∈ ds, d.isDigit = true) :
    ∀ {n : ℕ} (k : ℕ) (s : Stream), Nat.ofDigitChars 10 ds n ≤ limit →
      accumulate limit n k (ds ++ s) =
        accumulate limit (Nat.ofDigitChars 10 ds n) (k + ds.length) s := by
  induction ds with
  | nil => simp
  | cons d ds ih =>
      intro n k s h
      have hd : d.isDigit = true := hds d (by simp)
      have hstep : Nat.ofDigitChars 10 (d :: ds) n =
          Nat.ofDigitChars 10 ds (n * 10 + digitValue d) := by
        rw [Nat.ofDigitChars_cons, Nat.mul_comm]
        rfl
      have hmono : n * 10 + digitValue d ≤ limit := by
        have hle := @Nat.ofDigitChars_eq_ofDigitChars_zero ds (n * 10 + digitValue d)
        have hpow : 1 ≤ 10 ^ ds.length := Nat.one_le_pow _ _ (by omega)
        have := Nat.le_mul_of_pos_left (n * 10 + digitValue d) hpow
        omega
      have hlt := digitValue_lt hd
      have hgo : ¬(limit / 10 ≤ n ∧ (n ≠ limit / 10 ∨ limit % 10 < digitValue d)) := by
        omega
      rw [hstep] at h ⊢
      rw [List.cons_append, accumulate, if_pos hd, if_neg hgo,
        ih (fun x hx => hds x (List.mem_cons_of_mem _ hx)) _ _ h, List.length_cons]
      congr 1
      omega

/-- Where the digits end, nothing is added. -/
theorem accumulate_end {limit n k : ℕ} {c : Char} (h : c.isDigit = false) (s : Stream) :
    accumulate limit n k (c :: s) = (n, k, c :: s) := by
  simp [accumulate, h]

/-- Going on with a larger limit is going on from the start. -/
theorem accumulate_accumulate {limit limit' : ℕ} (hle : limit ≤ limit') (s : Stream) :
    ∀ n k, accumulate limit' (accumulate limit n k s).1 (accumulate limit n k s).2.1
      (accumulate limit n k s).2.2 = accumulate limit' n k s := by
  induction s with
  | nil => exact fun n k => rfl
  | cons c s ih =>
      intro n k
      rw [accumulate]
      split
      · rename_i hc
        have hlt := digitValue_lt hc
        split
        · rfl
        · have hgo : ¬(limit' / 10 ≤ n ∧ (n ≠ limit' / 10 ∨ limit' % 10 < digitValue c)) := by
            omega
          rw [ih, accumulate, if_pos hc, if_neg hgo]
      · rfl

/-- The digits of a number: the first is zero for zero alone. -/
theorem exists_toDigits_eq_cons (n : ℕ) :
    ∃ d ds, Nat.toDigits 10 n = d :: ds ∧ (d = '0' → n = 0) ∧
      ∀ x ∈ d :: ds, x.isDigit = true := by
  have hdigits : ∀ x ∈ Nat.toDigits 10 n, x.isDigit = true := fun x hx =>
    Nat.isDigit_of_mem_toDigits (by omega) (by omega) hx
  suffices h : ∃ d ds, Nat.toDigits 10 n = d :: ds ∧ (d = '0' → n = 0) by
    obtain ⟨d, ds, heq, hzero⟩ := h
    exact ⟨d, ds, heq, hzero, heq ▸ hdigits⟩
  clear hdigits
  induction n using Nat.strong_induction_on with
  | _ n ih =>
      rcases Nat.lt_or_ge n 10 with hlt | hge
      · refine ⟨n.digitChar, [], Nat.toDigits_of_lt_base hlt, ?_⟩
        interval_cases n <;> decide
      · obtain ⟨d, ds, heq, hzero⟩ := ih (n / 10) (by omega)
        refine ⟨d, ds ++ [(n % 10).digitChar], ?_, fun h => ?_⟩
        · rw [Nat.toDigits_of_base_le (by omega) hge, heq, List.cons_append]
        · have := hzero h
          omega

/-- The integer part of a written integer. -/
theorem parseInteger_toDigits (minus : Bool) {n : ℕ} (h : n ≤ 2 ^ 63) {c : Char}
    (hc : c.isDigit = false) (s : Stream) :
    ∃ k, parseInteger minus (Nat.toDigits 10 n ++ c :: s) =
      .ok (⟨n, none, k, 0, 0⟩, c :: s) := by
  obtain ⟨d, ds, heq, hzero, hdigits⟩ := exists_toDigits_eq_cons n
  have hd : d.isDigit = true := hdigits d (by simp)
  have hvalue : Nat.ofDigitChars 10 ds (digitValue d) = n := by
    have h := @Nat.ofDigitChars_ten_toDigits n
    simpa [heq, Nat.ofDigitChars_cons, digitValue] using h
  rw [heq, List.cons_append, parseInteger]
  by_cases h0 : d = '0'
  · have hn := hzero h0
    have hds : ds = [] := by
      rw [hn, Nat.toDigits_zero] at heq
      exact (List.cons.inj heq).2.symm
    exact ⟨0, by rw [if_pos h0, hn, hds]; rfl⟩
  · have hlimit : n ≤ (if minus then 2 ^ 63 else 2 ^ 64 - 1) := by
      split <;> omega
    have hstages : (if minus then 2 ^ 31 else 2 ^ 32 - 1) ≤
        (if minus then 2 ^ 63 else 2 ^ 64 - 1) := by
      split <;> omega
    have hread := accumulate_accumulate hstages (ds ++ c :: s) (digitValue d) 0
    rw [accumulate_digits ds (fun x hx => hdigits x (List.mem_cons_of_mem _ hx)) 0 (c :: s)
      (hvalue.trans_le hlimit), hvalue, accumulate_end hc] at hread
    refine ⟨0 + ds.length, ?_⟩
    rw [if_neg h0, if_pos hd]
    simp only [integerDigits, hread, List.head?_cons, Option.any_some, hc, Bool.false_eq_true,
      if_false]

/-- **Integers.** A written integer is read back. -/
theorem parseNumber_write {n : ℤ} (h : -2 ^ 63 ≤ n ∧ n < 2 ^ 63) {c : Char}
    (hc : NumberEnd c) (s : Stream) :
    parseNumber (writeInt n ++ c :: s) = .ok (.number n, c :: s) := by
  obtain ⟨hdigit, hdot, he, hE⟩ := hc
  have hfraction : ∀ x : Number, parseFraction x (c :: s) = .ok (x, c :: s) := by
    intro x
    simp only [parseFraction]
    split
    · rename_i heq
      exact absurd (List.cons.inj heq).1 hdot
    · rfl
  have hexponent : ∀ x : Number, parseExponent x (c :: s) = .ok (x, c :: s) := by
    intro x
    simp [parseExponent, he, hE]
  rw [parseNumber, writeInt]
  by_cases hneg : n < 0
  · obtain ⟨k, hk⟩ := parseInteger_toDigits true (n := n.natAbs) (by omega) hdigit s
    rw [if_pos hneg, List.cons_append]
    simp only [parseMinus, hk, hfraction, hexponent, finishNumber, bind, Except.bind, if_true]
    congr 3
    omega
  · obtain ⟨k, hk⟩ := parseInteger_toDigits false (n := n.natAbs) (by omega) hdigit s
    have hminus : parseMinus (Nat.toDigits 10 n.natAbs ++ c :: s) =
        (false, Nat.toDigits 10 n.natAbs ++ c :: s) := by
      obtain ⟨d, ds, heq, -, hdigits⟩ := exists_toDigits_eq_cons n.natAbs
      rw [heq, List.cons_append]
      simp only [parseMinus]
      split
      · rename_i t hcons
        have hd := hdigits d (by simp)
        rw [(List.cons.inj hcons).1] at hd
        exact absurd hd (by decide)
      · rfl
    rw [if_neg hneg]
    simp only [hminus, hk, hfraction, hexponent, finishNumber, bind, Except.bind,
      Bool.false_eq_true, if_false]
    congr 3
    omega

/-! ### Values -/

namespace Value

mutual

/-- A value without doubles, whose integers fit 64 bits. -/
def Plain : Value → Prop
  | number n => -2 ^ 63 ≤ n ∧ n < 2 ^ 63
  | double _ => False
  | array vs => PlainElements vs
  | object ms => PlainMembers ms
  | null | bool _ | string _ => True

def PlainElements : List Value → Prop
  | [] => True
  | v :: vs => v.Plain ∧ PlainElements vs

def PlainMembers : List (List Char × Value) → Prop
  | [] => True
  | (_, v) :: ms => v.Plain ∧ PlainMembers ms

end

end Value

/-- A character that a written value can start with. -/
def Opens (c : Char) : Prop :=
  c ∈ ['n', 't', 'f', '"', '{', '[', '-'] ∨ c.isDigit = true

/-- A character that no value opens with. -/
theorem Opens.ne {c d : Char} (h : Opens c)
    (hd : d ∉ ['n', 't', 'f', '"', '{', '[', '-']) (hd' : d.isDigit = false) : c ≠ d := by
  rintro rfl
  rcases h with h | h
  · exact hd h
  · exact Bool.false_ne_true (hd'.symm.trans h)

/-- A character that is no whitespace is not skipped. -/
theorem skipWhitespace_cons {c : Char} (h : c ≠ ' ' ∧ c ≠ '\n' ∧ c ≠ '\r' ∧ c ≠ '\t')
    (s : Stream) : skipWhitespace (c :: s) = c :: s := by
  simp [skipWhitespace, h]

/-- Before a value there is no whitespace left to skip. -/
theorem Opens.skipWhitespace {c : Char} (h : Opens c) (s : Stream) :
    skipWhitespace (c :: s) = c :: s :=
  skipWhitespace_cons ⟨h.ne (by decide) (by decide), h.ne (by decide) (by decide),
    h.ne (by decide) (by decide), h.ne (by decide) (by decide)⟩ s

section Values

variable (dtoa : Float → List Char)

/-- An integer opens with a digit or a minus. -/
theorem exists_writeInt_eq_cons (n : ℤ) :
    ∃ c t, writeInt n = c :: t ∧ (c = '-' ∨ c.isDigit = true) := by
  rw [writeInt]
  split
  · exact ⟨'-', _, rfl, Or.inl rfl⟩
  · obtain ⟨d, ds, heq, -, hdigits⟩ := exists_toDigits_eq_cons n.natAbs
    exact ⟨d, ds, heq, Or.inr (hdigits d (by simp))⟩

/-- What is written opens with a character that a value may open with. -/
theorem exists_write_eq_cons {v : Value} (h : v.Plain) :
    ∃ c t, write dtoa v = c :: t ∧ Opens c := by
  cases v with
  | null => exact ⟨'n', _, by rw [write], Or.inl (by decide)⟩
  | bool b =>
      cases b with
      | true => exact ⟨'t', _, by rw [write], Or.inl (by decide)⟩
      | false => exact ⟨'f', _, by rw [write], Or.inl (by decide)⟩
  | number n =>
      obtain ⟨c, t, heq, hc⟩ := exists_writeInt_eq_cons n
      refine ⟨c, t, by rw [write, heq], ?_⟩
      rcases hc with rfl | hc
      · exact Or.inl (by decide)
      · exact Or.inr hc
  | double d => exact absurd h (by simp [Value.Plain])
  | string s => exact ⟨'"', _, by rw [write, writeString], Or.inl (by decide)⟩
  | array vs => exact ⟨'[', _, by rw [write], Or.inl (by decide)⟩
  | object ms => exact ⟨'{', _, by rw [write], Or.inl (by decide)⟩

/-- A value that starts like a number is read as one. -/
theorem parseValue_eq_parseNumber (fuel : ℕ) {c : Char} (h : c = '-' ∨ c.isDigit = true)
    (s : Stream) : parseValue (fuel + 1) (c :: s) = parseNumber (c :: s) := by
  have hne : ∀ d : Char, d ≠ '-' → d.isDigit = false → c ≠ d := by
    rintro d hd hd' rfl
    rcases h with rfl | h
    · exact hd rfl
    · exact Bool.false_ne_true (hd'.symm.trans h)
  rw [parseValue, if_neg (hne _ (by decide) (by decide)), if_neg (hne _ (by decide) (by decide)),
    if_neg (hne _ (by decide) (by decide)), if_neg (hne _ (by decide) (by decide)),
    if_neg (hne _ (by decide) (by decide)), if_neg (hne _ (by decide) (by decide))]

theorem numberEnd_comma : NumberEnd ',' := by simp [NumberEnd]
theorem numberEnd_bracket : NumberEnd ']' := by simp [NumberEnd]
theorem numberEnd_brace : NumberEnd '}' := by simp [NumberEnd]
theorem numberEnd_nul : NumberEnd '\x00' := by simp [NumberEnd]

mutual

/-- **Written values** are read back, in front of what cannot go on a number. -/
theorem parseValue_write : (v : Value) → v.Plain → ∀ fuel : ℕ,
    2 * (write dtoa v).length ≤ fuel → ∀ {c : Char}, NumberEnd c → ∀ s : Stream,
      parseValue fuel (write dtoa v ++ c :: s) = .ok (v, c :: s)
  | .null, _, fuel, hfuel, c, _, s => by
      obtain ⟨fuel, rfl⟩ : ∃ k, fuel = k + 1 := ⟨fuel - 1, by simp [write] at hfuel; omega⟩
      rfl
  | .bool true, _, fuel, hfuel, c, _, s => by
      obtain ⟨fuel, rfl⟩ : ∃ k, fuel = k + 1 := ⟨fuel - 1, by simp [write] at hfuel; omega⟩
      rfl
  | .bool false, _, fuel, hfuel, c, _, s => by
      obtain ⟨fuel, rfl⟩ : ∃ k, fuel = k + 1 := ⟨fuel - 1, by simp [write] at hfuel; omega⟩
      rfl
  | .number n, hv, fuel, hfuel, c, hc, s => by
      obtain ⟨d, t, heq, hd⟩ := exists_writeInt_eq_cons n
      obtain ⟨fuel, rfl⟩ : ∃ k, fuel = k + 1 := ⟨fuel - 1, by simp [write, heq] at hfuel; omega⟩
      rw [Value.Plain] at hv
      have hread := parseNumber_write hv hc s
      rw [write, heq, List.cons_append] at *
      rw [parseValue_eq_parseNumber fuel hd, hread]
  | .double d, hv, _, _, _, _, _ => absurd hv (by simp [Value.Plain])
  | .string text, _, fuel, hfuel, c, _, s => by
      obtain ⟨fuel, rfl⟩ : ∃ k, fuel = k + 1 :=
        ⟨fuel - 1, by simp [write, writeString] at hfuel; omega⟩
      have hread := parseString_write text (c :: s)
      rw [write, writeString, List.cons_append, List.append_assoc, List.singleton_append]
      simp [parseValue, hread, Except.map]
  | .array [], _, fuel, hfuel, c, _, s => by
      obtain ⟨fuel, rfl⟩ : ∃ k, fuel = k + 1 := ⟨fuel - 1, by simp [write] at hfuel; omega⟩
      rfl
  | .array (v :: vs), hv, fuel, hfuel, c, _, s => by
      rw [Value.Plain] at hv
      obtain ⟨fuel, rfl⟩ : ∃ k, fuel = k + 1 := ⟨fuel - 1, by simp [write] at hfuel; omega⟩
      have hread := parseElements_write (v :: vs) hv (List.cons_ne_nil v vs) fuel
        (by simp only [write, List.length_cons, List.length_append] at hfuel; omega) (c :: s)
      have hv := hv
      rw [Value.PlainElements] at hv
      obtain ⟨d, t, heq, hd⟩ := exists_write_eq_cons dtoa hv.1
      have hhead : writeElements dtoa true (v :: vs) ++ ']' :: c :: s =
          d :: (t ++ (writeElements dtoa false vs ++ ']' :: c :: s)) := by
        simp [writeElements, heq]
      rw [hhead] at hread
      rw [write, List.cons_append, List.append_assoc, List.singleton_append, hhead]
      simp [parseValue, hd.skipWhitespace, hd.ne, hread, Except.map]
  | .object [], _, fuel, hfuel, c, _, s => by
      obtain ⟨fuel, rfl⟩ : ∃ k, fuel = k + 1 := ⟨fuel - 1, by simp [write] at hfuel; omega⟩
      rfl
  | .object ((name, v) :: ms), hv, fuel, hfuel, c, _, s => by
      rw [Value.Plain] at hv
      obtain ⟨fuel, rfl⟩ : ∃ k, fuel = k + 1 := ⟨fuel - 1, by simp [write] at hfuel; omega⟩
      have hread := parseMembers_write ((name, v) :: ms) hv (List.cons_ne_nil _ ms) fuel
        (by simp only [write, List.length_cons, List.length_append] at hfuel; omega) (c :: s)
      obtain ⟨t, hhead⟩ : ∃ t, writeMembers dtoa true ((name, v) :: ms) ++ '}' :: c :: s =
          '"' :: t := by
        simp [writeMembers, writeString]
      rw [hhead] at hread
      rw [write, List.cons_append, List.append_assoc, List.singleton_append, hhead]
      simp [parseValue, skipWhitespace, hread, Except.map]

/-- **Written elements** are read back, and the bracket after them. -/
theorem parseElements_write : (vs : List Value) → Value.PlainElements vs → vs ≠ [] →
    ∀ fuel : ℕ, 2 * (writeElements dtoa true vs).length + 1 ≤ fuel → ∀ s : Stream,
      parseElements fuel (writeElements dtoa true vs ++ ']' :: s) = .ok (vs, s)
  | [], _, hne, _, _, _ => absurd rfl hne
  | [v], hv, _, fuel, hfuel, s => by
      rw [Value.PlainElements] at hv
      simp only [writeElements, List.append_nil, List.nil_append, if_true] at hfuel ⊢
      obtain ⟨fuel, rfl⟩ : ∃ k, fuel = k + 1 := ⟨fuel - 1, by omega⟩
      rw [parseElements, parseValue_write v hv.1 fuel (by omega) numberEnd_bracket s]
      rfl
  | v :: w :: vs, hv, _, fuel, hfuel, s => by
      rw [Value.PlainElements] at hv
      have htail : writeElements dtoa false (w :: vs) =
          ',' :: writeElements dtoa true (w :: vs) := by
        simp [writeElements]
      rw [writeElements, htail] at hfuel ⊢
      simp only [List.length_append, List.length_cons, List.length_nil, if_true] at hfuel
      obtain ⟨fuel, rfl⟩ : ∃ k, fuel = k + 1 := ⟨fuel - 1, by omega⟩
      have hrest := parseElements_write (w :: vs) hv.2 (List.cons_ne_nil w vs) fuel
        (by omega) s
      obtain ⟨d, t, heq, hd⟩ : ∃ d t, write dtoa w = d :: t ∧ Opens d := by
        have h := hv.2
        rw [Value.PlainElements] at h
        exact exists_write_eq_cons dtoa h.1
      have hskip : skipWhitespace (writeElements dtoa true (w :: vs) ++ ']' :: s) =
          writeElements dtoa true (w :: vs) ++ ']' :: s := by
        simp [writeElements, heq, hd.skipWhitespace]
      rw [if_pos rfl, List.nil_append, List.append_assoc, List.cons_append, parseElements,
        parseValue_write v hv.1 fuel (by omega) numberEnd_comma]
      simp [bind, Except.bind, skipWhitespace, hskip, hrest]

/-- **Written members** are read back, and the brace after them. -/
theorem parseMembers_write : (ms : List (List Char × Value)) → Value.PlainMembers ms → ms ≠ [] →
    ∀ fuel : ℕ, 2 * (writeMembers dtoa true ms).length + 1 ≤ fuel → ∀ s : Stream,
      parseMembers fuel (writeMembers dtoa true ms ++ '}' :: s) = .ok (ms, s)
  | [], _, hne, _, _, _ => absurd rfl hne
  | [(name, v)], hv, _, fuel, hfuel, s => by
      rw [Value.PlainMembers] at hv
      simp only [writeMembers, List.append_nil, List.nil_append, if_true, List.length_append,
        List.length_cons] at hfuel ⊢
      obtain ⟨fuel, rfl⟩ : ∃ k, fuel = k + 1 := ⟨fuel - 1, by omega⟩
      obtain ⟨d, t, heq, hd⟩ := exists_write_eq_cons dtoa hv.1
      have hvalue := parseValue_write v hv.1 fuel (by omega) numberEnd_brace s
      rw [heq, List.cons_append] at hvalue
      rw [writeString, heq]
      simp [parseMembers, parseString_write, bind, Except.bind, skipWhitespace_cons,
        hd.skipWhitespace, hvalue]
  | (name, v) :: m :: ms, hv, _, fuel, hfuel, s => by
      rw [Value.PlainMembers] at hv
      have htail : writeMembers dtoa false (m :: ms) = ',' :: writeMembers dtoa true (m :: ms) := by
        simp [writeMembers]
      rw [writeMembers, htail] at hfuel ⊢
      simp only [List.length_append, List.length_cons, List.length_nil, if_true] at hfuel
      obtain ⟨fuel, rfl⟩ : ∃ k, fuel = k + 1 := ⟨fuel - 1, by omega⟩
      have hrest := parseMembers_write (m :: ms) hv.2 (List.cons_ne_nil m ms) fuel
        (by omega) s
      obtain ⟨t', hhead⟩ : ∃ t, writeMembers dtoa true (m :: ms) ++ '}' :: s = '"' :: t := by
        simp [writeMembers, writeString]
      obtain ⟨d, t, heq, hd⟩ := exists_write_eq_cons dtoa hv.1
      have hvalue := parseValue_write v hv.1 fuel (by omega) numberEnd_comma
        (writeMembers dtoa true (m :: ms) ++ '}' :: s)
      rw [heq, List.cons_append, hhead] at hvalue
      rw [hhead] at hrest
      rw [if_pos rfl, List.nil_append, writeString, heq]
      simp [hhead, parseMembers, parseString_write, bind, Except.bind, skipWhitespace_cons,
        hd.skipWhitespace, hvalue, hrest]

end

/-- **The reader inverts the writer.** -/
theorem parse_write {v : Value} (h : v.Plain) : parse (write dtoa v) = .ok v := by
  obtain ⟨c, t, heq, hc⟩ := exists_write_eq_cons dtoa h
  have hread := parseValue_write dtoa v h (2 * (c :: (t ++ ['\x00'])).length + 1)
    (by rw [heq]; simp only [List.length_cons, List.length_append]; omega) numberEnd_nul []
  rw [heq, List.cons_append] at hread
  have hnul : c ≠ '\x00' := hc.ne (by decide) (by decide)
  rw [parse, heq, List.cons_append, hc.skipWhitespace]
  simp only [hnul, if_false, hread, bind, Except.bind]
  rfl

end Values

/-! ### Calls -/

/-- A reader call that does not run out of calls and leaves at most `n` characters. -/
def Ends {α : Type} (n : ℕ) : Except Failure (α × Stream) → Prop
  | .ok (_, s) => s.length ≤ n
  | .error e => e ≠ .fuel

section Ends

variable {α β : Type} {n m : ℕ}

/-- More characters may be left. -/
theorem Ends.mono {r : Except Failure (α × Stream)} (h : Ends n r) (hle : n ≤ m) : Ends m r := by
  cases r with
  | ok a => exact Nat.le_trans h hle
  | error e => exact h

/-- A call that goes on after another. -/
theorem Ends.bind {r : Except Failure (α × Stream)}
    {f : α × Stream → Except Failure (β × Stream)} (h : Ends n r)
    (hf : ∀ a s, s.length ≤ n → Ends m (f (a, s))) : Ends m (r >>= f) := by
  cases r with
  | ok a => exact hf a.1 a.2 h
  | error e => exact h

/-- A call that only changes the result of another. -/
theorem Ends.bind_ok {r : Except Failure (α × Stream)}
    {f : α × Stream → Except Failure (β × Stream)} (h : Ends n r)
    (hf : ∀ a s, ∃ b, f (a, s) = .ok (b, s)) : Ends n (r >>= f) := by
  refine h.bind fun a s hs => ?_
  obtain ⟨b, hb⟩ := hf a s
  rw [hb]
  exact hs

/-- The result of a call is changed. -/
theorem Ends.map {r : Except Failure (α × Stream)} (h : Ends n r) (f : α → β) :
    Ends n (r.map fun a => (f a.1, a.2)) := by
  cases r with
  | ok a => exact h
  | error e => exact h

end Ends

/-- Skipping whitespace adds nothing. -/
theorem length_skipWhitespace_le (s : Stream) : (skipWhitespace s).length ≤ s.length := by
  induction s with
  | nil => simp [skipWhitespace]
  | cons c s ih =>
      rw [skipWhitespace]
      split
      · simp only [List.length_cons]
        omega
      · exact le_refl _

/-- `ParseNull`, `ParseTrue` and `ParseFalse`, after the first character. -/
theorem ends_literal {α : Type} (result : α) (cs : List Char) (s : Stream) :
    Ends s.length (literal result cs s) := by
  induction cs generalizing s with
  | nil => exact le_refl s.length
  | cons c cs ih =>
      cases s with
      | nil => exact fun h => Failure.noConfusion h
      | cons d s =>
          rw [literal]
          split
          · exact (ih s).mono (by simp)
          · exact fun h => Failure.noConfusion h

/-- `ParseHex4`: a character that is no digit is left. -/
theorem ends_parseHex4 (k codepoint : ℕ) (s : Stream) :
    Ends s.length (parseHex4 k codepoint s) := by
  induction k generalizing codepoint s with
  | zero => exact le_refl s.length
  | succ k ih =>
      cases s with
      | nil => exact fun h => Failure.noConfusion h
      | cons c s =>
          rw [parseHex4]
          split
          · exact (ih _ s).mono (by simp)
          · exact Nat.le_succ _

/-- An error in a string is a parse error or a failed assertion. -/
theorem failAfter_ne_fuel (bad : Bool) : failAfter bad ≠ .fuel := by
  cases bad <;> decide

/-- An escape of one or two units. -/
theorem ends_parseUnicode (bad : Bool) (s : Stream) : Ends s.length (parseUnicode bad s) := by
  refine (ends_parseHex4 4 0 s).bind fun codepoint s hs => ?_
  cases codepoint with
  | none =>
      cases bad with
      | true => exact fun h => Failure.noConfusion h
      | false => exact hs
  | some codepoint =>
      simp only
      split
      · have hlow : Ends s.length ((literal () ['\\', 'u'] s).mapError fun e =>
            if e = .error then failAfter bad else e) := by
          have h := ends_literal () ['\\', 'u'] s
          cases hr : literal () ['\\', 'u'] s with
          | ok a =>
              rw [hr] at h
              exact h
          | error e =>
              rw [hr] at h
              simp only [Except.mapError, Ends]
              split
              · exact failAfter_ne_fuel bad
              · exact h
        refine (hlow.mono hs).bind fun _ s hs => ?_
        refine ((ends_parseHex4 4 0 s).mono hs).bind fun codepoint2 s hs => ?_
        cases codepoint2 with
        | none => exact fun h => Failure.noConfusion h
        | some codepoint2 =>
            simp only
            split
            · exact failAfter_ne_fuel bad
            · exact hs
      · exact hs

/-- `ParseStringToStream`: the quote at the end is always taken. -/
theorem ends_parseChars (fuel : ℕ) (bad : Bool) (s : Stream) (h : s.length < fuel) :
    Ends (s.length - 1) (parseChars fuel bad s) := by
  induction fuel generalizing bad s with
  | zero => omega
  | succ fuel ih =>
      cases s with
      | nil => exact fun h => Failure.noConfusion h
      | cons c s =>
          simp only [List.length_cons] at h ⊢
          simp only [parseChars]
          split
          · cases s with
            | nil => exact fun h => Failure.noConfusion h
            | cons e s =>
                simp only [List.length_cons] at h ⊢
                split
                · refine Ends.bind_ok ?_ fun _ _ => ⟨_, rfl⟩
                  exact (ih bad s (by omega)).mono (by omega)
                · split
                  · refine (ends_parseUnicode bad s).bind fun ⟨codepoint, bad⟩ t ht => ?_
                    refine Ends.bind_ok ?_ fun _ _ => ⟨_, rfl⟩
                    exact (ih bad t (by omega)).mono (by omega)
                  · exact failAfter_ne_fuel bad
          · split
            · cases bad with
              | true => exact fun h => Failure.noConfusion h
              | false => exact Nat.le_refl s.length
            · split
              · exact failAfter_ne_fuel bad
              · refine Ends.bind_ok ?_ fun _ _ => ⟨_, rfl⟩
                exact (ih bad s (by omega)).mono (by omega)

/-- `ParseString`. -/
theorem ends_parseString (s : Stream) : Ends (s.length - 1) (parseString s) :=
  ends_parseChars _ _ s (Nat.lt_succ_self _)

/-- A loop over digits leaves no more than it was given. -/
theorem length_accumulate_le (limit : ℕ) (s : Stream) (n k : ℕ) :
    (accumulate limit n k s).2.2.length ≤ s.length := by
  induction s generalizing n k with
  | nil => exact le_refl _
  | cons c s ih =>
      rw [accumulate]
      split
      · split
        · exact le_refl _
        · exact (ih _ _).trans (by simp)
      · exact le_refl _

/-- The same loop, in floating point. -/
theorem ends_accumulateDouble (d : Float) (s : Stream) :
    Ends s.length (accumulateDouble d s) := by
  induction s generalizing d with
  | nil => exact le_refl 0
  | cons c s ih =>
      rw [accumulateDouble]
      split
      · split
        · exact fun h => Failure.noConfusion h
        · exact (ih _).mono (by simp)
      · exact le_refl (c :: s).length

/-- The loop over the digits of a fraction. -/
theorem length_accumulateFraction_le (d : Float) (k : ℕ) (expFrac : ℤ) (s : Stream) :
    (accumulateFraction d k expFrac s).2.2.length ≤ s.length := by
  induction s generalizing d k expFrac with
  | nil => exact le_refl _
  | cons c s ih =>
      rw [accumulateFraction]
      split
      · split
        · exact (ih _ _ _).trans (by simp)
        · exact (ih _ _ _).trans (by simp)
      · exact le_refl _

/-- The loop over the digits of an exponent. -/
theorem ends_accumulateExponent (expMinus : Bool) (exp : ℤ) (s : Stream) :
    Ends s.length (accumulateExponent expMinus exp s) := by
  induction s generalizing exp with
  | nil => exact le_refl 0
  | cons c s ih =>
      rw [accumulateExponent]
      split
      · simp only
        split
        · exact fun h => Failure.noConfusion h
        · exact (ih _).mono (by simp)
      · exact le_refl (c :: s).length

/-- The integer part of a number takes one digit at least. -/
theorem ends_parseInteger (minus : Bool) (s : Stream) :
    Ends (s.length - 1) (parseInteger minus s) := by
  cases s with
  | nil => exact fun h => Failure.noConfusion h
  | cons c s =>
      rw [parseInteger]
      split
      · exact le_refl s.length
      · split
        · have hlen : (integerDigits minus (digitValue c) s).2.2.length ≤ s.length :=
            (length_accumulate_le _ _ _ _).trans (length_accumulate_le _ _ _ _)
          simp only
          split
          · refine Ends.bind_ok ?_ fun _ _ => ⟨_, rfl⟩
            exact (ends_accumulateDouble _ _).mono hlen
          · exact hlen
        · exact fun h => Failure.noConfusion h

/-- A fraction may be missing. -/
theorem ends_parseFraction (x : Number) (s : Stream) :
    Ends s.length (parseFraction x s) := by
  simp only [parseFraction]
  split
  · split
    · exact (length_accumulateFraction_le _ _ _ _).trans (Nat.le_succ _)
    · exact fun h => Failure.noConfusion h
  · exact le_refl s.length

/-- A sign may be missing. -/
theorem length_parseSign_le (s : Stream) : (parseSign s).2.length ≤ s.length := by
  simp only [parseSign]
  split <;> simp

/-- An exponent may be missing. -/
theorem ends_parseExponent (x : Number) (s : Stream) :
    Ends s.length (parseExponent x s) := by
  cases s with
  | nil => exact le_refl 0
  | cons e s =>
      rw [parseExponent]
      split
      · have hsign := length_parseSign_le s
        simp only
        split
        · exact fun h => Failure.noConfusion h
        · rename_i c t ht
          rw [ht] at hsign
          split
          · refine Ends.bind_ok ?_ fun _ _ => ⟨_, rfl⟩
            refine (ends_accumulateExponent _ _ t).mono ?_
            simp only [List.length_cons] at hsign ⊢
            omega
          · exact fun h => Failure.noConfusion h
      · exact le_refl (e :: s).length

/-- A power of ten out of range is a failed assertion. -/
theorem pow10_ne_fuel (n : ℤ) : pow10 n ≠ .error .fuel := by
  rw [pow10]
  split <;> simp

/-- So is a conversion that needs one. -/
theorem fastPath_ne_fuel (d : Float) (n : ℤ) : fastPath d n ≠ .error .fuel := by
  have hmap : ∀ (f : Float → Float) k, (pow10 k).map f ≠ .error .fuel := by
    intro f k
    have h := pow10_ne_fuel k
    cases hr : pow10 k with
    | ok a => simp [Except.map]
    | error e =>
        rw [hr] at h
        simpa [Except.map] using h
  rw [fastPath]
  split
  · simp
  · split
    · exact hmap _ _
    · exact hmap _ _

/-- The end of a number makes no more calls. -/
theorem finishNumber_ne_fuel (minus : Bool) (x : Number) :
    finishNumber minus x ≠ .error .fuel := by
  have hdouble : ∀ d p, strtodNormalPrecision d p ≠ .error .fuel := by
    intro d p
    rw [strtodNormalPrecision]
    split
    · have h := fastPath_ne_fuel d (-308)
      cases hr : fastPath d (-308) with
      | ok a => exact fastPath_ne_fuel a _
      | error e => exact fun he => h (hr.trans he)
    · exact fastPath_ne_fuel d p
  rw [finishNumber]
  split
  · simp
  · rename_i d _
    have h := hdouble d (wrap32 (x.exp + x.expFrac))
    cases hr : strtodNormalPrecision d (wrap32 (x.exp + x.expFrac)) with
    | ok a => simp [Except.map]
    | error e =>
        rw [hr] at h
        simpa [Except.map] using h

/-- **A number** takes one character at least. -/
theorem ends_parseNumber (t : Stream) : Ends (t.length - 1) (parseNumber t) := by
  have hminus : (parseMinus t).2.length ≤ t.length := by
    simp only [parseMinus]
    split <;> simp
  have hinteger := ends_parseInteger (parseMinus t).1 (parseMinus t).2
  refine (hinteger.mono (m := t.length - 1) (by omega)).bind fun x s hs => ?_
  refine ((ends_parseFraction x s).mono hs).bind fun x s hs => ?_
  refine ((ends_parseExponent x s).mono hs).bind fun x s hs => ?_
  have h := finishNumber_ne_fuel (parseMinus t).1 x
  change Ends (t.length - 1) (finishNumber (parseMinus t).1 x >>= fun v => .ok (v, s))
  cases hr : finishNumber (parseMinus t).1 x with
  | ok v => exact hs
  | error e => exact fun he => h (hr.trans (congrArg _ he))

/-- **Two calls for each character are enough**, and one more for a loop. -/
theorem ends_parse (fuel : ℕ) (s : Stream) :
    (2 * s.length + 1 ≤ fuel → Ends (s.length - 1) (parseValue fuel s)) ∧
      (2 * s.length + 2 ≤ fuel → Ends (s.length - 1) (parseElements fuel s)) ∧
      (2 * s.length + 2 ≤ fuel → Ends (s.length - 1) (parseMembers fuel s)) := by
  induction fuel generalizing s with
  | zero => exact ⟨fun h => by omega, fun h => by omega, fun h => by omega⟩
  | succ fuel ih =>
      refine ⟨fun h => ?_, fun h => ?_, fun h => ?_⟩
      · cases s with
        | nil => exact fun h => Failure.noConfusion h
        | cons c s =>
            have hskip := length_skipWhitespace_le s
            simp only [List.length_cons, Nat.add_sub_cancel] at h ⊢
            rw [parseValue]
            split
            · exact ends_literal _ _ s
            split
            · exact ends_literal _ _ s
            split
            · exact ends_literal _ _ s
            split
            · exact ((ends_parseString s).mono (Nat.sub_le _ _)).map Value.string
            split
            · split
              · exact fun h => Failure.noConfusion h
              · rename_i d t ht
                rw [ht, List.length_cons] at hskip
                split
                · exact Nat.le_of_succ_le hskip
                · have hms := (ih (d :: t)).2.2 (by simp only [List.length_cons]; omega)
                  exact (hms.map Value.object).mono (by simp only [List.length_cons]; omega)
            split
            · split
              · exact fun h => Failure.noConfusion h
              · rename_i d t ht
                rw [ht, List.length_cons] at hskip
                split
                · exact Nat.le_of_succ_le hskip
                · have hvs := (ih (d :: t)).2.1 (by simp only [List.length_cons]; omega)
                  exact (hvs.map Value.array).mono (by simp only [List.length_cons]; omega)
            · exact ends_parseNumber (c :: s)
      · rw [parseElements]
        refine ((ih s).1 (by omega)).bind fun v t ht => ?_
        have hskip := length_skipWhitespace_le t
        simp only
        split
        · exact fun h => Failure.noConfusion h
        · rename_i c u hu
          rw [hu, List.length_cons] at hskip
          have hnext := length_skipWhitespace_le u
          split
          · refine Ends.bind_ok ?_ fun _ _ => ⟨_, rfl⟩
            exact ((ih (skipWhitespace u)).2.1 (by omega)).mono (by omega)
          · split
            · exact (Nat.le_of_succ_le hskip).trans ht
            · exact fun h => Failure.noConfusion h
      · cases s with
        | nil => exact fun h => Failure.noConfusion h
        | cons q s =>
            simp only [List.length_cons, Nat.add_sub_cancel] at h ⊢
            rw [parseMembers]
            split
            · refine (ends_parseString s).bind fun name t ht => ?_
              have hskip := length_skipWhitespace_le t
              simp only
              split
              · exact fun h => Failure.noConfusion h
              · rename_i c u hu
                rw [hu, List.length_cons] at hskip
                have hvalue := length_skipWhitespace_le u
                split
                · refine ((ih (skipWhitespace u)).1 (by omega)).bind fun v w hw => ?_
                  have hafter := length_skipWhitespace_le w
                  simp only
                  split
                  · exact fun h => Failure.noConfusion h
                  · rename_i d x hx
                    rw [hx, List.length_cons] at hafter
                    have hnext := length_skipWhitespace_le x
                    split
                    · refine Ends.bind_ok ?_ fun _ _ => ⟨_, rfl⟩
                      exact ((ih (skipWhitespace x)).2.2 (by omega)).mono (by omega)
                    · split
                      · have hlen : x.length ≤ s.length := by omega
                        exact hlen
                      · exact fun h => Failure.noConfusion h
                · exact fun h => Failure.noConfusion h
            · exact fun h => Failure.noConfusion h

/-- **The reader** never runs out of the calls that `parse` allows. -/
theorem parse_ne_fuel (text : List Char) : parse text ≠ .error .fuel := by
  have h := (ends_parse _ (skipWhitespace (text ++ ['\x00']))).1 (le_refl _)
  rw [parse]
  generalize skipWhitespace (text ++ ['\x00']) = u at h ⊢
  simp only
  cases u with
  | nil => simp
  | cons c t =>
      simp only
      split
      · simp
      · cases hr : parseValue (2 * (c :: t).length + 1) (c :: t) with
        | ok a =>
            simp only [bind, Except.bind]
            split
            · simp
            · split <;> simp
        | error e =>
            rw [hr] at h
            simpa [bind, Except.bind, Ends] using h

/-- **A document** that was written is read. -/
theorem document_write (dtoa : Float → List Char) {v : Value} (h : v.Plain) :
    document (write dtoa v) = some v := by
  rw [document, parse_write dtoa h]

end MahjongAI.Json
