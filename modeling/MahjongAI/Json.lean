import Mathlib.Algebra.Ring.Int.Defs
import Mathlib.Algebra.Ring.Nat

/-!
# The JSON Reader and Writer

The packets carry JSON text that the bundled `rapidjson` writes and reads. A `char *`
is a list of characters, one for each byte, and the text that the reader runs over ends
with the terminating NUL. The reader peeks and takes single characters, so it stops at
the NUL unless it takes it: `ParseHex4` takes whatever stands after `\u` and goes on
after an invalid digit, so that a NUL there lets it leave the buffer. It also records
the error without stopping, and the assertion that an error is assigned only once
fails at the next one.

A reader call therefore succeeds, records a parse error (the document is then null), or
aborts. The recursion is on a number of calls, `fuel`, a failure of its own that
`parse` never meets.
-/

namespace MahjongAI.Json

/-- `rapidjson::Value`. An integer carries the type flags that its range gives it. -/
inductive Value where
  | null
  | bool (b : Bool)
  | number (n : ℤ)
  | double (d : Float)
  | string (s : List Char)
  | array (elements : List Value)
  | object (members : List (List Char × Value))

namespace Value

/-- `IsInt64`. -/
def isInt64 : Value → Bool
  | number n => decide (-2 ^ 63 ≤ n ∧ n < 2 ^ 63)
  | _ => false

/-- `GetInt`, which asserts the flag of the 32-bit integers. -/
def getInt : Value → Option ℤ
  | number n => if -2 ^ 31 ≤ n ∧ n < 2 ^ 31 then some n else none
  | _ => none

/-- `GetBool`, which asserts that the value is one. -/
def getBool : Value → Option Bool
  | bool b => some b
  | _ => none

end Value

/-- `FindMember`: the value of the first member of a name. -/
def findMember (name : List Char) (members : List (List Char × Value)) : Option Value :=
  (members.find? fun m => decide (m.1 = name)).map Prod.snd

/-! ### The writer -/

/-- `hexDigits[n]`. -/
def hexDigit (n : ℕ) : Char :=
  ['0', '1', '2', '3', '4', '5', '6', '7', '8', '9', 'A', 'B', 'C', 'D', 'E', 'F'].getD n '0'

/-- The `escape` table of the writer; `none` is its zero. -/
def writerEscape (c : Char) : Option Char :=
  if c = '\x08' then some 'b'
  else if c = '\t' then some 't'
  else if c = '\n' then some 'n'
  else if c = '\x0c' then some 'f'
  else if c = '\r' then some 'r'
  else if c.toNat < 32 then some 'u'
  else if c = '"' then some '"'
  else if c = '\\' then some '\\'
  else none

/-- One character of `WriteString`. -/
def writeChar (c : Char) : List Char :=
  match writerEscape c with
  | none => [c]
  | some e =>
      if e = 'u' then ['\\', 'u', '0', '0', hexDigit (c.toNat / 16), hexDigit (c.toNat % 16)]
      else ['\\', e]

/-- `WriteString`. -/
def writeString (s : List Char) : List Char :=
  '"' :: (s.flatMap writeChar ++ ['"'])

/-- `WriteInt64` and its siblings: the decimal digits, after a minus sign. -/
def writeInt (n : ℤ) : List Char :=
  if n < 0 then '-' :: Nat.toDigits 10 n.natAbs else Nat.toDigits 10 n.natAbs

section Writer

variable (dtoa : Float → List Char)

mutual

/-- `Value::Accept` with a writer. The text of a double is left to `dtoa`. -/
def write : Value → List Char
  | .null => ['n', 'u', 'l', 'l']
  | .bool true => ['t', 'r', 'u', 'e']
  | .bool false => ['f', 'a', 'l', 's', 'e']
  | .number n => writeInt n
  | .double d => dtoa d
  | .string s => writeString s
  | .array vs => '[' :: (writeElements true vs ++ [']'])
  | .object ms => '{' :: (writeMembers true ms ++ ['}'])

/-- The elements of an array; `Prefix` puts a comma before all but the first. -/
def writeElements : Bool → List Value → List Char
  | _, [] => []
  | first, v :: vs => (if first then [] else [',']) ++ (write v ++ writeElements false vs)

/-- The members of an object; `Prefix` puts the commas and the colons. -/
def writeMembers : Bool → List (List Char × Value) → List Char
  | _, [] => []
  | first, (name, v) :: ms =>
      (if first then [] else [',']) ++
        (writeString name ++ ':' :: (write v ++ writeMembers false ms))

end

end Writer

/-! ### The reader -/

/-- The characters that the reader has left, the terminating NUL included. -/
abbrev Stream := List Char

/-- How a reader call fails: it records a parse error, it aborts (a failed assertion, or
a read beyond the buffer), or the model runs out of calls. -/
inductive Failure where
  | error
  | abort
  | fuel
  deriving DecidableEq

/-- `SkipWhitespace`. -/
def skipWhitespace : Stream → Stream
  | [] => []
  | c :: s =>
      if c = ' ' ∨ c = '\n' ∨ c = '\r' ∨ c = '\t' then skipWhitespace s else c :: s

/-- The rest of `null`, `true` and `false`, compared character by character, and the
result that it stands for. -/
def literal {α : Type} (result : α) : List Char → Stream → Except Failure (α × Stream)
  | [], s => .ok (result, s)
  | _ :: _, [] => .error .abort
  | c :: cs, d :: s => if d = c then literal result cs s else .error .error

/-- The value of a hexadecimal digit. -/
def hexValue (c : Char) : Option ℕ :=
  if '0' ≤ c ∧ c ≤ '9' then some (c.toNat - '0'.toNat)
  else if 'A' ≤ c ∧ c ≤ 'F' then some (c.toNat - 'A'.toNat + 10)
  else if 'a' ≤ c ∧ c ≤ 'f' then some (c.toNat - 'a'.toNat + 10)
  else none

/-- `ParseHex4`, with `k` digits to go. An invalid digit is taken, and recorded as an
error: the result is then `none`, which the caller goes on with as code point zero. -/
def parseHex4 : ℕ → ℕ → Stream → Except Failure (Option ℕ × Stream)
  | 0, codepoint, s => .ok (some codepoint, s)
  | _ + 1, _, [] => .error .abort
  | k + 1, codepoint, c :: s =>
      match hexValue c with
      | some d => parseHex4 k (codepoint * 16 + d) s
      | none => .ok (none, s)

/-- `UTF8::Encode`. -/
def encode (codepoint : ℕ) : List Char :=
  if codepoint ≤ 0x7F then [Char.ofNat codepoint]
  else if codepoint ≤ 0x7FF then
    [Char.ofNat (0xC0 + codepoint / 64), Char.ofNat (0x80 + codepoint % 64)]
  else if codepoint ≤ 0xFFFF then
    [Char.ofNat (0xE0 + codepoint / 4096), Char.ofNat (0x80 + codepoint / 64 % 64),
      Char.ofNat (0x80 + codepoint % 64)]
  else
    [Char.ofNat (0xF0 + codepoint / 262144), Char.ofNat (0x80 + codepoint / 4096 % 64),
      Char.ofNat (0x80 + codepoint / 64 % 64), Char.ofNat (0x80 + codepoint % 64)]

/-- The `escape` table of the reader. -/
def readerEscape (c : Char) : Option Char :=
  if c = '"' then some '"'
  else if c = '/' then some '/'
  else if c = '\\' then some '\\'
  else if c = 'b' then some '\x08'
  else if c = 'f' then some '\x0c'
  else if c = 'n' then some '\n'
  else if c = 'r' then some '\r'
  else if c = 't' then some '\t'
  else none

/-- A parse error when `bad` tells whether one is recorded already. -/
def failAfter (bad : Bool) : Failure :=
  if bad then .abort else .error

/-- The `\u` escape: the code point, and whether an error is recorded now. -/
def parseUnicode (bad : Bool) (s : Stream) : Except Failure ((ℕ × Bool) × Stream) := do
  let (codepoint, s) ← parseHex4 4 0 s
  match codepoint with
  | none => if bad then .error .abort else .ok ((0, true), s)
  | some codepoint =>
      if 0xD800 ≤ codepoint ∧ codepoint ≤ 0xDBFF then
        let (_, s) ← (literal () ['\\', 'u'] s).mapError fun e =>
          if e = .error then failAfter bad else e
        let (codepoint2, s) ← parseHex4 4 0 s
        match codepoint2 with
        | none => .error .abort
        | some codepoint2 =>
            if codepoint2 < 0xDC00 ∨ 0xDFFF < codepoint2 then .error (failAfter bad)
            else .ok (((codepoint - 0xD800) * 1024 + (codepoint2 - 0xDC00) + 0x10000, bad), s)
      else .ok ((codepoint, bad), s)

/-- `ParseStringToStream`, after the opening quote. -/
def parseChars : ℕ → Bool → Stream → Except Failure (List Char × Stream)
  | 0, _, _ => .error .fuel
  | _ + 1, _, [] => .error .abort
  | fuel + 1, bad, c :: s =>
      if c = '\\' then
        match s with
        | [] => .error .abort
        | e :: s =>
            match readerEscape e with
            | some d => do
                let (out, s) ← parseChars fuel bad s
                .ok (d :: out, s)
            | none =>
                if e = 'u' then do
                  let ((codepoint, bad), s) ← parseUnicode bad s
                  let (out, s) ← parseChars fuel bad s
                  .ok (encode codepoint ++ out, s)
                else .error (failAfter bad)
      else if c = '"' then
        if bad then .error .error else .ok ([], s)
      else if c.toNat < 32 then .error (failAfter bad)
      else do
        let (out, s) ← parseChars fuel bad s
        .ok (c :: out, s)

/-- `ParseString`, after the opening quote. -/
def parseString (s : Stream) : Except Failure (List Char × Stream) :=
  parseChars (s.length + 1) false s

/-! ### Numbers -/

/-- Two's complement arithmetic of `int`. -/
def wrap32 (n : ℤ) : ℤ :=
  (n + 2 ^ 31) % 2 ^ 32 - 2 ^ 31

/-- The value of a decimal digit. -/
def digitValue (c : Char) : ℕ :=
  c.toNat - '0'.toNat

/-- A digit loop of `ParseNumber`: it stops before the value exceeds `limit`. The second
number counts the digits, the source's `significandDigit`. -/
def accumulate (limit : ℕ) : ℕ → ℕ → Stream → ℕ × ℕ × Stream
  | n, digits, [] => (n, digits, [])
  | n, digits, c :: s =>
      if c.isDigit then
        if limit / 10 ≤ n ∧ (n ≠ limit / 10 ∨ limit % 10 < digitValue c) then (n, digits, c :: s)
        else accumulate limit (n * 10 + digitValue c) (digits + 1) s
      else (n, digits, c :: s)

/-- The tenth of the largest double. -/
@[irreducible] def doubleMaxTenth : Float := 1.7976931348623157e307

/-- The digits of an integer beyond 64 bits. -/
def accumulateDouble : Float → Stream → Except Failure (Float × Stream)
  | d, [] => .ok (d, [])
  | d, c :: s =>
      if c.isDigit then
        if d ≥ doubleMaxTenth then .error .error
        else accumulateDouble (d * 10 + Float.ofNat (digitValue c)) s
      else .ok (d, c :: s)

/-- The digits of a fraction: at most 17 significant ones count. -/
def accumulateFraction : Float → ℕ → ℤ → Stream → Float × ℤ × Stream
  | d, _, expFrac, [] => (d, expFrac, [])
  | d, digits, expFrac, c :: s =>
      if c.isDigit then
        if digits < 17 then
          let d := d * 10 + Float.ofNat (digitValue c)
          accumulateFraction d (if d != 0 then digits + 1 else digits) (expFrac - 1) s
        else accumulateFraction d digits expFrac s
      else (d, expFrac, c :: s)

/-- The digits of an exponent. -/
def accumulateExponent (expMinus : Bool) : ℤ → Stream → Except Failure (ℤ × Stream)
  | exp, [] => .ok (exp, [])
  | exp, c :: s =>
      if c.isDigit then
        let exp := wrap32 (exp * 10 + digitValue c)
        if exp > 308 ∧ expMinus = false then .error .error
        else accumulateExponent expMinus exp s
      else .ok (exp, c :: s)

/-- The local variables of `ParseNumber`: the integer read, the double that replaces it
(`useDouble`), `significandDigit`, `expFrac` and `exp`. -/
structure Number where
  value : ℕ
  double : Option Float
  digits : ℕ
  expFrac : ℤ
  exp : ℤ

/-- `d` where it is read, after the conversion of the integer if need be. -/
def Number.d (x : Number) : Float :=
  x.double.getD (Float.ofNat x.value)

/-- The 32-bit loop and the 64-bit loop, after the first digit. -/
def integerDigits (minus : Bool) (first : ℕ) (s : Stream) : ℕ × ℕ × Stream :=
  let (i, digits, s) := accumulate (if minus then 2 ^ 31 else 2 ^ 32 - 1) first 0 s
  accumulate (if minus then 2 ^ 63 else 2 ^ 64 - 1) i digits s

/-- The integer part; beyond 64 bits it goes on as a double. -/
def parseInteger (minus : Bool) (s : Stream) : Except Failure (Number × Stream) :=
  match s with
  | [] => .error .abort
  | c :: s =>
      if c = '0' then .ok (⟨0, none, 0, 0, 0⟩, s)
      else if c.isDigit then
        let (i64, digits, s) := integerDigits minus (digitValue c) s
        if s.head?.any Char.isDigit then do
          let (d, s) ← accumulateDouble (Float.ofNat i64) s
          .ok (⟨i64, some d, digits, 0, 0⟩, s)
        else .ok (⟨i64, none, digits, 0, 0⟩, s)
      else .error .error

/-- The fraction. -/
def parseFraction (x : Number) (s : Stream) : Except Failure (Number × Stream) :=
  match s with
  | '.' :: s =>
      if s.head?.any Char.isDigit then
        let (d, expFrac, s) := accumulateFraction x.d x.digits 0 s
        .ok ({ x with double := some d, expFrac }, s)
      else .error .error
  | s => .ok (x, s)

/-- The sign of the exponent. -/
def parseSign (s : Stream) : Bool × Stream :=
  match s with
  | '+' :: s => (false, s)
  | '-' :: s => (true, s)
  | s => (false, s)

/-- The exponent. -/
def parseExponent (x : Number) (s : Stream) : Except Failure (Number × Stream) :=
  match s with
  | [] => .ok (x, s)
  | e :: t =>
      if e = 'e' ∨ e = 'E' then
        let (expMinus, t) := parseSign t
        match t with
        | [] => .error .abort
        | c :: t =>
            if c.isDigit then do
              let (exp, t) ← accumulateExponent expMinus (digitValue c) t
              .ok ({ x with double := some x.d, exp := if expMinus then wrap32 (-exp) else exp }, t)
            else .error .error
      else .ok (x, s)

/-- `Pow10`, which asserts the range of its table. -/
def pow10 (n : ℤ) : Except Failure Float :=
  if 0 ≤ n ∧ n ≤ 308 then .ok (Float.ofScientific 1 false n.toNat) else .error .abort

/-- `FastPath`. -/
def fastPath (significand : Float) (exp : ℤ) : Except Failure Float :=
  if exp < -308 then .ok 0
  else if 0 ≤ exp then (pow10 exp).map (significand * ·)
  else (pow10 (-exp)).map (significand / ·)

/-- `StrtodNormalPrecision`. -/
def strtodNormalPrecision (d : Float) (p : ℤ) : Except Failure Float :=
  if p < -308 then do
    let d ← fastPath d (-308)
    fastPath d (p + 308)
  else fastPath d p

/-- The value of a number that has been read. -/
def finishNumber (minus : Bool) (x : Number) : Except Failure Value :=
  match x.double with
  | none => .ok (.number (if minus then -x.value else x.value))
  | some d => (strtodNormalPrecision d (wrap32 (x.exp + x.expFrac))).map fun d =>
      .double (if minus then -d else d)

/-- The minus sign of a number. -/
def parseMinus (s : Stream) : Bool × Stream :=
  match s with
  | '-' :: s => (true, s)
  | s => (false, s)

/-- `ParseNumber`. -/
def parseNumber (s : Stream) : Except Failure (Value × Stream) := do
  let (minus, s) := parseMinus s
  let (x, s) ← parseInteger minus s
  let (x, s) ← parseFraction x s
  let (x, s) ← parseExponent x s
  let v ← finishNumber minus x
  .ok (v, s)

/-! ### Values -/

mutual

/-- `ParseValue`. -/
def parseValue : ℕ → Stream → Except Failure (Value × Stream)
  | 0, _ => .error .fuel
  | _ + 1, [] => .error .abort
  | fuel + 1, c :: s =>
      if c = 'n' then literal .null ['u', 'l', 'l'] s
      else if c = 't' then literal (.bool true) ['r', 'u', 'e'] s
      else if c = 'f' then literal (.bool false) ['a', 'l', 's', 'e'] s
      else if c = '"' then (parseString s).map fun (text, s) => (.string text, s)
      else if c = '{' then
        match skipWhitespace s with
        | [] => .error .abort
        | d :: t =>
            if d = '}' then .ok (.object [], t)
            else (parseMembers fuel (d :: t)).map fun (ms, s) => (.object ms, s)
      else if c = '[' then
        match skipWhitespace s with
        | [] => .error .abort
        | d :: t =>
            if d = ']' then .ok (.array [], t)
            else (parseElements fuel (d :: t)).map fun (vs, s) => (.array vs, s)
      else parseNumber (c :: s)

/-- The loop of `ParseArray`. -/
def parseElements : ℕ → Stream → Except Failure (List Value × Stream)
  | 0, _ => .error .fuel
  | fuel + 1, s => do
      let (v, s) ← parseValue fuel s
      match skipWhitespace s with
      | [] => .error .abort
      | c :: s =>
          if c = ',' then do
            let (vs, s) ← parseElements fuel (skipWhitespace s)
            .ok (v :: vs, s)
          else if c = ']' then .ok ([v], s)
          else .error .error

/-- The loop of `ParseObject`. -/
def parseMembers : ℕ → Stream → Except Failure (List (List Char × Value) × Stream)
  | 0, _ => .error .fuel
  | _ + 1, [] => .error .abort
  | fuel + 1, q :: s =>
      if q = '"' then do
        let (name, s) ← parseString s
        match skipWhitespace s with
        | [] => .error .abort
        | c :: s =>
            if c = ':' then do
              let (v, s) ← parseValue fuel (skipWhitespace s)
              match skipWhitespace s with
              | [] => .error .abort
              | c :: s =>
                  if c = ',' then do
                    let (ms, s) ← parseMembers fuel (skipWhitespace s)
                    .ok ((name, v) :: ms, s)
                  else if c = '}' then .ok ([(name, v)], s)
                  else .error .error
            else .error .error
      else .error .error

end

/-- `Reader::Parse` on the text from a pointer on. -/
def parse (text : List Char) : Except Failure Value :=
  let s := skipWhitespace (text ++ ['\x00'])
  match s with
  | [] => .error .abort
  | c :: _ =>
      if c = '\x00' then .error .error
      else do
        let (v, s) ← parseValue (2 * s.length + 1) s
        match skipWhitespace s with
        | [] => .error .abort
        | c :: _ => if c = '\x00' then .ok v else .error .error

/-- `Document::Parse`: the value, null after a parse error, or an abort. -/
def document (text : List Char) : Option Value :=
  match parse text with
  | .ok v => some v
  | .error .error => some .null
  | .error _ => none

end MahjongAI.Json
