import MahjongAI.Message

/-!
# Reading the Handshake

The message of an open frame is an object with the session id, the ping interval and the ping
timeout. `on_handshake` takes the members as it finds them: a session id that is no string
fails the assertion of `get_string`, and a null pointer is read through, so that
`readHandshake` is partial.

## Main results

* `readHandshake_isSome_iff`: the messages that `on_handshake` can read.
-/

namespace MahjongAI

/-- The session id, the interval and the timeout of a handshake. -/
structure Handshake where
  sid : List Char
  pingInterval : ℕ
  pingTimeout : ℕ

/-- The members that `on_handshake` looks for. -/
def sidName : List Char :=
  ['s', 'i', 'd']

def pingIntervalName : List Char :=
  ['p', 'i', 'n', 'g', 'I', 'n', 't', 'e', 'r', 'v', 'a', 'l']

def pingTimeoutName : List Char :=
  ['p', 'i', 'n', 'g', 'T', 'i', 'm', 'e', 'o', 'u', 't']

/-- A member as an `unsigned`, or its default where it is missing or no integer. The flag of
a null pointer cannot be read. -/
def unsignedOr (default : ℕ) : Option Message → Option ℕ
  | some .nullptr => none
  | some (.int n) => some (n % 2 ^ 32).toNat
  | _ => some default

/-- What `on_handshake` reads: `some none` goes to `failed`, and `none` is a failed assertion
or a null pointer that is dereferenced. -/
def readHandshake : Message → Option (Option Handshake)
  | .object values =>
      match values.lookup sidName with
      | some (.string sid) =>
          (unsignedOr 25000 (values.lookup pingIntervalName)).bind fun pingInterval =>
            (unsignedOr 60000 (values.lookup pingTimeoutName)).map fun pingTimeout =>
              some ⟨sid, pingInterval, pingTimeout⟩
      | some _ => none
      | none => some none
  | _ => some none

theorem unsignedOr_isSome_iff (default : ℕ) (m : Option Message) :
    (unsignedOr default m).isSome = true ↔ m ≠ some .nullptr := by
  cases m with
  | none => simp [unsignedOr]
  | some m => cases m <;> simp [unsignedOr]

/-- A message that `on_handshake` can read: if it is an object with a session id, the id is a
string, and neither the interval nor the timeout is a null pointer. -/
def CanShake (m : Message) : Prop :=
  ∀ values, m = .object values → ∀ sid, values.lookup sidName = some sid →
    (∃ s, sid = .string s) ∧ values.lookup pingIntervalName ≠ some .nullptr ∧
      values.lookup pingTimeoutName ≠ some .nullptr

theorem readHandshake_isSome_iff (m : Message) :
    (readHandshake m).isSome = true ↔ CanShake m := by
  cases m with
  | object values =>
      rw [readHandshake, CanShake]
      cases hsid : values.lookup sidName with
      | none => simp [hsid]
      | some sid =>
          cases sid with
          | string s =>
              simp only [Message.object.injEq, forall_eq', hsid, Option.some.injEq,
                Message.string.injEq, exists_eq', true_and]
              rw [← unsignedOr_isSome_iff 25000, ← unsignedOr_isSome_iff 60000]
              cases unsignedOr 25000 (values.lookup pingIntervalName) with
              | none => simp
              | some pingInterval => simp
          | _ => simp [hsid]
  | _ => simp [readHandshake, CanShake]

end MahjongAI
