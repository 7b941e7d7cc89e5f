import MahjongAI.Client
import Mathlib.Data.Rat.Floor

/-!
# Back-off and the Number of Reconnections

After a failed attempt and after a connection that was lost, the client waits before it
tries again: `m_reconn_delay` at first, half as long again after each attempt, and never
longer than `m_reconn_delay_max`. It tries `m_reconn_attempts` times at most.

`Backoff` holds the two delays with their setters, `Reconnecting` puts them beside the
client and counts the reconnections that were started since the last `on_open` or
`connect`. The product of `next_delay` is taken over the rationals.

A failure with attempts left calls the reconnect listener, and the timer is armed when the
listener returns, whatever the user has done in the meantime.

## Main results

* `Backoff.nextDelay_mem`, `Backoff.nextDelay_mono`: while the setters keep their invariant,
  the delay lies between its two bounds and does not decrease.
* `Client.Inv.spends`: in every step, the attempts made and a wait of the timer, or one that
  is about to start, together stay within the number of attempts.
* `Reconnecting.bounded_of_run`: so in every run the reconnections are bounded, and the failure
  that follows the last one is reported to the user.
-/

open Runs

namespace MahjongAI

/-! ### The delay -/

/-- `m_reconn_delay` and `m_reconn_delay_max`, in milliseconds. -/
structure Backoff where
  reconnDelay : BitVec 32
  reconnDelayMax : BitVec 32
  deriving DecidableEq

namespace Backoff

/-- The delays of a new client. -/
def init : Backoff where
  reconnDelay := 5000
  reconnDelayMax := 25000

/-- `set_reconnect_delay`. -/
def setReconnectDelay (b : Backoff) (millis : BitVec 32) : Backoff where
  reconnDelay := millis
  reconnDelayMax := if b.reconnDelayMax < millis then millis else b.reconnDelayMax

/-- `set_reconnect_delay_max`. -/
def setReconnectDelayMax (b : Backoff) (millis : BitVec 32) : Backoff where
  reconnDelay := if b.reconnDelay > millis then millis else b.reconnDelay
  reconnDelayMax := millis

/-- The delay before it is cut to an integer. -/
def product (b : Backoff) (reconnMade : ℕ) : ℚ :=
  min (b.reconnDelay.toNat * (3 / 2) ^ min reconnMade 32) b.reconnDelayMax.toNat

/-- `next_delay`. -/
def nextDelay (b : Backoff) (reconnMade : ℕ) : BitVec 32 :=
  BitVec.ofNat 32 ⌊b.product reconnMade⌋₊

/-- The **invariant** of the two settings. -/
def Inv (b : Backoff) : Prop :=
  b.reconnDelay ≤ b.reconnDelayMax

theorem inv_init : init.Inv := by
  rw [Inv]
  decide

/-- The one setter raises the upper bound, the other lowers the delay. -/
theorem inv_setReconnectDelay (b : Backoff) (millis : BitVec 32) :
    (b.setReconnectDelay millis).Inv := by
  simp only [Inv, setReconnectDelay]
  split
  · exact BitVec.le_refl millis
  · rename_i h
    exact BitVec.not_lt.mp h

theorem inv_setReconnectDelayMax (b : Backoff) (millis : BitVec 32) :
    (b.setReconnectDelayMax millis).Inv := by
  simp only [Inv, setReconnectDelayMax]
  split
  · exact BitVec.le_refl millis
  · rename_i h
    exact BitVec.not_lt.mp h

/-- The cut delay fits into its word. -/
theorem toNat_nextDelay (b : Backoff) (reconnMade : ℕ) :
    (b.nextDelay reconnMade).toNat = ⌊b.product reconnMade⌋₊ := by
  have hle : ⌊b.product reconnMade⌋₊ ≤ b.reconnDelayMax.toNat :=
    Nat.floor_le_of_le (min_le_right _ _)
  have := b.reconnDelayMax.isLt
  rw [nextDelay, BitVec.toNat_ofNat, Nat.mod_eq_of_lt (by omega)]

/-- **The delay lies between the two settings.** -/
theorem nextDelay_mem {b : Backoff} (h : b.Inv) (reconnMade : ℕ) :
    b.reconnDelay ≤ b.nextDelay reconnMade ∧ b.nextDelay reconnMade ≤ b.reconnDelayMax := by
  rw [BitVec.le_def, BitVec.le_def, toNat_nextDelay]
  constructor
  · refine Nat.le_floor (le_min ?_ ?_)
    · have hpow : (1 : ℚ) ≤ (3 / 2) ^ min reconnMade 32 := one_le_pow₀ (by norm_num)
      exact le_mul_of_one_le_right (Nat.cast_nonneg _) hpow
    · exact_mod_cast BitVec.le_def.mp h
  · exact Nat.floor_le_of_le (min_le_right _ _)

/-- **The delay does not decrease** with the attempts. -/
theorem nextDelay_mono (b : Backoff) {m n : ℕ} (hmn : m ≤ n) : b.nextDelay m ≤ b.nextDelay n := by
  rw [BitVec.le_def, toNat_nextDelay, toNat_nextDelay]
  refine Nat.floor_le_floor (min_le_min_right _ ?_)
  have hpow : ((3 : ℚ) / 2) ^ min m 32 ≤ (3 / 2) ^ min n 32 :=
    pow_le_pow_right₀ (by norm_num) (min_le_min_right 32 hmn)
  exact mul_le_mul_of_nonneg_left hpow (Nat.cast_nonneg _)

end Backoff

/-! ### The attempts that are left -/

namespace Client

/-- The step resets `m_reconn_made`: `on_open`, or a `connect` that starts a new loop. -/
def resets (s : Client) : Event → Bool
  | .onOpen _ => true
  | .connect => !s.thread
  | .joined => s.joining = some .connect
  | _ => false

/-- The step starts a reconnection. -/
def reconnects (s : Client) : Event → Bool
  | .timeoutReconnect => s.conState = .closed
  | _ => false

/-- The number of reconnections since the last reset, after the step. -/
def tally (s : Client) (e : Event) (n : ℕ) : ℕ :=
  if s.resets e then 0 else if s.reconnects e then n + 1 else n

/-- A failed attempt, or a connection lost without a `close` of the user. -/
def IsFailure (s : Client) : Event → Prop
  | .onFail _ => True
  | .onClose _ normal => normal = false ∧ s.conState ≠ .closing
  | _ => False

/-- What stands for an attempt to come: a wait, or the reconnect listener before it. -/
def waits (s : Client) : ℕ :=
  s.timer.toNat + s.due + s.calling.toList.count .reconnect

/-- The attempts made, and the one that a wait stands for. -/
def committed (s : Client) : ℕ :=
  s.reconnMade + s.waits

/-- What a step does to the attempts: `m_reconn_attempts` stays, `m_reconn_made` counts the
reconnections, and no more are committed than allowed. -/
structure Spends (s t : Client) (made : ℕ) : Prop where
  attempts_eq : t.reconnAttempts = s.reconnAttempts
  made_eq : t.reconnMade = made
  committed_le : t.committed ≤ t.reconnAttempts

/-- A step that leaves the attempts alone, but may give up a wait. -/
theorem spends_of_eq {s t : Client} (h : s.committed ≤ s.reconnAttempts)
    (hattempts : t.reconnAttempts = s.reconnAttempts) (hmade : t.reconnMade = s.reconnMade)
    (hwait : t.waits ≤ s.waits) : s.Spends t s.reconnMade := by
  refine ⟨hattempts, hmade, ?_⟩
  rw [committed] at h ⊢
  omega

theorem waits_cancelTimer (s : Client) : s.cancelTimer.waits ≤ s.waits := by
  simp only [waits, cancelTimer, Bool.toNat_false]
  omega

theorem spends_closeImpl {s : Client} (h : s.committed ≤ s.reconnAttempts) :
    s.Spends s.closeImpl s.reconnMade := by
  rw [closeImpl]
  cases s.con with
  | none => exact spends_of_eq h rfl rfl s.waits_cancelTimer
  | some c => exact spends_of_eq h rfl rfl s.waits_cancelTimer

/-- A `connect` that starts a new loop has all attempts again. -/
theorem spends_startLoop {s : Client} (h : s.committed ≤ s.reconnAttempts) :
    s.Spends s.startLoop 0 := by
  refine ⟨rfl, rfl, ?_⟩
  simp only [committed, waits, startLoop] at h ⊢
  omega

/-- A `connect_impl` has no part in the count. -/
theorem connectImpl_frame (s : Client) (made : Bool) :
    (s.connectImpl made).reconnAttempts = s.reconnAttempts ∧
      (s.connectImpl made).reconnMade = s.reconnMade ∧ (s.connectImpl made).waits = s.waits := by
  cases made <;> exact ⟨rfl, rfl, rfl⟩

/-- The end of a failure commits one attempt more, if there is one left. -/
theorem spends_reconnect {s t : Client} (h : s.committed ≤ s.reconnAttempts)
    (hwaits : t.timer = false ∧ t.due = 0 ∧ t.calling = none)
    (hattempts : t.reconnAttempts = s.reconnAttempts) (hmade : t.reconnMade = s.reconnMade) :
    s.Spends t.reconnect s.reconnMade := by
  obtain ⟨htimer, hdue, hcalling⟩ := hwaits
  rw [reconnect]
  split
  · rename_i hlt
    refine ⟨hattempts, hmade, ?_⟩
    simp only [committed, waits, htimer, Bool.toNat_false, hdue, Option.toList_some,
      List.count_singleton_self]
    omega
  · refine spends_of_eq h hattempts hmade ?_
    simp [waits, htimer, hdue, hcalling]

/-- While an attempt or a connection is there, no wait is, nor a listener before one. -/
theorem Inv.no_wait {s : Client} (h : s.Inv) (hbusy : 0 < s.attempts.length + s.connections.length)
    :
    s.timer = false ∧ s.due = 0 ∧ s.calling = none := by
  have hone := h.one
  rw [pending] at hone
  refine ⟨Bool.toNat_eq_zero.mp (by omega), by omega, ?_⟩
  cases hcalling : s.calling with
  | none => rfl
  | some call =>
      rw [hcalling, length_toList_some] at hone
      omega

theorem spends_connect {s t : Client} (h : s.committed ≤ s.reconnAttempts)
    (hstep : s.connect = some t) : s.Spends t (s.tally .connect s.reconnMade) := by
  have hcancel := spends_of_eq h (t := s.cancelTimer) rfl rfl s.waits_cancelTimer
  rw [Client.connect] at hstep
  by_cases hthread : s.thread = true
  · have htally : s.tally .connect s.reconnMade = s.reconnMade := by
      simp [tally, resets, reconnects, hthread]
    rw [htally]
    by_cases hstate : s.conState = .closing ∨ s.conState = .closed
    · rw [if_pos hthread, if_pos hstate, join] at hstep
      split at hstep
      · obtain rfl := Option.some.inj hstep
        exact ⟨hcancel.attempts_eq, hcancel.made_eq, hcancel.committed_le⟩
      · exact absurd hstep (by simp)
    · rw [if_pos hthread, if_neg hstate] at hstep
      obtain rfl := Option.some.inj hstep
      exact hcancel
  · have htally : s.tally .connect s.reconnMade = 0 := by
      simp [tally, resets, hthread]
    rw [if_neg hthread] at hstep
    obtain rfl := Option.some.inj hstep
    have hstart := spends_startLoop (s := s.cancelTimer)
      (hcancel.committed_le.trans_eq hcancel.attempts_eq)
    rw [htally]
    exact ⟨hstart.attempts_eq, hstart.made_eq, hstart.committed_le⟩

theorem spends_joined {s t : Client} (h : s.committed ≤ s.reconnAttempts)
    (hstep : s.joined = some t) : s.Spends t (s.tally .joined s.reconnMade) := by
  rw [Client.joined] at hstep
  split at hstep
  · rename_i hjoining
    obtain rfl := Option.some.inj hstep
    have htally : s.tally .joined s.reconnMade = 0 := by
      simp [tally, resets, hjoining]
    have hstart := spends_startLoop (s := { s with joining := none, thread := false }) h
    rw [htally]
    exact ⟨hstart.attempts_eq, hstart.made_eq, hstart.committed_le⟩
  · rename_i hjoining
    obtain rfl := Option.some.inj hstep
    have htally : s.tally .joined s.reconnMade = s.reconnMade := by
      simp [tally, resets, reconnects, hjoining]
    rw [htally]
    exact ⟨rfl, rfl, h⟩
  · exact absurd hstep (by simp)

theorem spends_syncClose {s t : Client} (h : s.committed ≤ s.reconnAttempts)
    (hstep : s.syncClose = some t) : s.Spends t s.reconnMade := by
  rw [Client.syncClose] at hstep
  by_cases hthread : s.thread = true
  · rw [if_pos hthread, join] at hstep
    split at hstep
    · obtain rfl := Option.some.inj hstep
      exact ⟨rfl, rfl, h⟩
    · exact absurd hstep (by simp)
  · rw [if_neg hthread] at hstep
    obtain rfl := Option.some.inj hstep
    exact ⟨rfl, rfl, h⟩

theorem spends_runPosted {s t : Client} {made : Bool} (h : s.committed ≤ s.reconnAttempts)
    (hstep : s.runPosted made = some t) : s.Spends t s.reconnMade := by
  rw [Client.runPosted] at hstep
  cases hposted : s.posted with
  | nil => simp [hposted] at hstep
  | cons first posted =>
      cases first with
      | connectImpl =>
          obtain rfl : _ = t := by simpa [hposted] using hstep
          obtain ⟨hattempts, hmade, hwaits⟩ := connectImpl_frame { s with posted := posted } made
          exact spends_of_eq h hattempts hmade hwaits.le
      | closeImpl =>
          obtain rfl : _ = t := by simpa [hposted] using hstep
          have hclose := spends_closeImpl (s := { s with posted := posted }) h
          exact ⟨hclose.attempts_eq, hclose.made_eq, hclose.committed_le⟩

theorem spends_expire {s t : Client} (h : s.committed ≤ s.reconnAttempts)
    (hstep : s.expire = some t) : s.Spends t s.reconnMade := by
  rw [Client.expire] at hstep
  by_cases htimer : s.timer = true
  · obtain rfl : _ = t := by simpa [htimer] using hstep
    refine spends_of_eq h rfl rfl ?_
    simp only [waits, htimer, Bool.toNat_true, Bool.toNat_false]
    omega
  · simp [htimer] at hstep

/-- A wait that is over becomes the attempt that it stood for. -/
theorem spends_timeoutReconnect {s t : Client} (h : s.committed ≤ s.reconnAttempts)
    (hstep : s.timeoutReconnect = some t) :
    s.Spends t (s.tally .timeoutReconnect s.reconnMade) := by
  rw [Client.timeoutReconnect] at hstep
  rw [committed, waits] at h
  cases hdue : s.due with
  | zero => simp [hdue] at hstep
  | succ due =>
      rw [hdue] at h
      by_cases hclosed : s.conState = .closed
      · obtain rfl : _ = t := by simpa [hdue, hclosed] using hstep
        have htally : s.tally .timeoutReconnect s.reconnMade = s.reconnMade + 1 := by
          simp [tally, resets, reconnects, hclosed]
        rw [htally]
        refine ⟨rfl, rfl, ?_⟩
        have hnone : List.count Calling.reconnect [Calling.reconnecting] = 0 := rfl
        simp only [committed, waits, Option.toList_some, hnone]
        omega
      · obtain rfl : _ = t := by simpa [hdue, hclosed] using hstep
        have htally : s.tally .timeoutReconnect s.reconnMade = s.reconnMade := by
          simp [tally, resets, reconnects, hclosed]
        rw [htally]
        refine ⟨rfl, rfl, ?_⟩
        simp only [committed, waits]
        omega

/-- After the reconnect listener, the wait itself stands for the attempt. -/
theorem spends_resume {s t : Client} {made : Bool} (h : s.committed ≤ s.reconnAttempts)
    (hstep : s.resume made = some t) : s.Spends t s.reconnMade := by
  rw [Client.resume] at hstep
  cases hcalling : s.calling with
  | none => simp [hcalling] at hstep
  | some call =>
      cases call with
      | reconnect =>
          obtain rfl : _ = t := by simpa [hcalling] using hstep
          refine spends_of_eq h rfl rfl ?_
          simp only [waits, armTimer, hcalling, Bool.toNat_true, Option.toList_none,
            Option.toList_some, List.count_nil, List.count_singleton_self]
          omega
      | reconnecting =>
          obtain rfl : _ = t := by simpa [hcalling] using hstep
          obtain ⟨hattempts, hmade, hwaits⟩ := connectImpl_frame { s with calling := none } made
          exact spends_of_eq h hattempts hmade (by rw [hwaits]; simp [waits])

theorem spends_onOpen {s t : Client} {c : ℕ} (h : s.committed ≤ s.reconnAttempts)
    (hstep : s.onOpen c = some t) : s.Spends t 0 := by
  rw [Client.onOpen] at hstep
  split at hstep
  · obtain rfl := Option.some.inj hstep
    refine ⟨rfl, rfl, ?_⟩
    simp only [committed, waits] at h ⊢
    omega
  · exact absurd hstep (by simp)

/-- What a failure does: the end of the handler runs on a client that has no wait. -/
theorem exists_reconnect_of_isFailure {s t : Client} {e : Event} (hinv : s.Inv)
    (he : s.IsFailure e) (hstep : s.step e = some t) :
    ∃ u : Client, t = u.reconnect ∧ (u.timer = false ∧ u.due = 0 ∧ u.calling = none) ∧
      u.reconnAttempts = s.reconnAttempts ∧ u.reconnMade = s.reconnMade ∧
      u.armed = s.armed := by
  cases e with
  | onFail c =>
      have hfail := (network_eq_some hstep).2
      rw [Client.onFail] at hfail
      split at hfail
      · rename_i hc
        obtain rfl := Option.some.inj hfail
        have hlength := List.length_pos_of_mem hc
        exact ⟨_, rfl, hinv.no_wait (by omega), rfl, rfl, rfl⟩
      · exact absurd hfail (by simp)
  | onClose c normal =>
      obtain ⟨rfl, hstate⟩ := he
      have hclose := (network_eq_some hstep).2
      rw [Client.onClose] at hclose
      split at hclose
      · rename_i hc
        rw [if_neg (by simpa using hstate)] at hclose
        obtain rfl := Option.some.inj hclose
        have hlength := List.length_pos_of_mem hc
        exact ⟨_, rfl, hinv.no_wait (by omega), rfl, rfl, rfl⟩
      · exact absurd hclose (by simp)
  | _ => exact he.elim

/-- **Every step stays within the attempts.** -/
theorem Inv.spends {s t : Client} {e : Event} (hinv : s.Inv)
    (h : s.committed ≤ s.reconnAttempts) (hstep : s.step e = some t) :
    s.Spends t (s.tally e s.reconnMade) := by
  have hfailure : s.IsFailure e → s.Spends t s.reconnMade := by
    intro he
    obtain ⟨u, rfl, hwaits, hattempts, hmade, -⟩ := exists_reconnect_of_isFailure hinv he hstep
    exact spends_reconnect h hwaits hattempts hmade
  cases e with
  | connect => exact spends_connect h hstep
  | close =>
      obtain rfl := Option.some.inj hstep
      exact ⟨rfl, rfl, h⟩
  | syncClose => exact spends_syncClose h hstep
  | joined => exact spends_joined h hstep
  | closeInListener =>
      obtain rfl := Option.some.inj (inLoop_eq_some hstep).2
      have hclose := spends_closeImpl (s := { s with conState := .closing }) h
      exact ⟨hclose.attempts_eq, hclose.made_eq, hclose.committed_le⟩
  | runPosted made => exact spends_runPosted h (network_eq_some hstep).2
  | expire => exact spends_expire h (network_eq_some hstep).2
  | timeoutReconnect => exact spends_timeoutReconnect h (network_eq_some hstep).2
  | resume made => exact spends_resume h (inLoop_eq_some hstep).2
  | onOpen c => exact spends_onOpen h (network_eq_some hstep).2
  | onFail c => exact hfailure trivial
  | onClose c normal =>
      by_cases hfail : s.IsFailure (.onClose c normal)
      · exact hfailure hfail
      · have hnormal : normal = true ∨ s.conState = .closing := by
          rw [IsFailure] at hfail
          cases normal with
          | true => exact Or.inl rfl
          | false => exact Or.inr (by simpa using hfail)
        have hclose := (network_eq_some hstep).2
        rw [Client.onClose] at hclose
        by_cases hc : c ∈ s.connections
        · obtain rfl : _ = t := by simpa [hc, hnormal] using hclose
          exact ⟨rfl, rfl, h⟩
        · simp [hc] at hclose
  | closeImpl =>
      obtain rfl := Option.some.inj (network_eq_some hstep).2
      exact spends_closeImpl h
  | loopEnd =>
      have hend := (network_eq_some hstep).2
      rw [Client.loopEnd] at hend
      split at hend
      · obtain rfl := Option.some.inj hend
        exact ⟨rfl, rfl, h⟩
      · exact absurd hend (by simp)

end Client

/-! ### Reports -/

/-- The reason that `m_close_listener` is called with. -/
inductive CloseReason
  | normal
  | drop
  deriving DecidableEq

/-- A call of a listener, if it is set. -/
inductive Report
  | opened
  | fail
  | close (reason : CloseReason)
  | reconnect (made : ℕ) (delay : BitVec 32)
  | reconnecting
  deriving DecidableEq

/-- The client with its delays, and the number of reconnections that were started since the
last `on_open` or `connect`. -/
structure Reconnecting where
  client : Client
  backoff : Backoff
  started : ℕ
  deriving DecidableEq

namespace Reconnecting

/-- The client as it is constructed, with the given `m_reconn_attempts`. -/
def init (reconnAttempts : ℕ) : Reconnecting :=
  ⟨.init reconnAttempts, .init, 0⟩

/-- A call of a setter, or an event of the client. -/
inductive Event
  | setReconnectDelay (millis : BitVec 32)
  | setReconnectDelayMax (millis : BitVec 32)
  | client (e : Client.Event)
  deriving DecidableEq

/-- One step. -/
def step (w : Reconnecting) : Event → Option Reconnecting
  | .setReconnectDelay millis => some { w with backoff := w.backoff.setReconnectDelay millis }
  | .setReconnectDelayMax millis =>
      some { w with backoff := w.backoff.setReconnectDelayMax millis }
  | .client e =>
      (w.client.step e).map fun t =>
        { w with client := t, started := w.client.tally e w.started }

/-- The report at the end of `on_fail` and of an abnormal `on_close`: that the client will
try again, or `last`. -/
def reportFailure (w : Reconnecting) (last : Report) : List Report :=
  if w.client.reconnMade < w.client.reconnAttempts then
    [.reconnect w.client.reconnMade (w.backoff.nextDelay w.client.reconnMade)]
  else [last]

/-- The report of `connect_impl`. -/
def reportConnect (made : Bool) : List Report :=
  if made then [] else [.fail]

/-- The listeners that the handler of an event calls. -/
def reports (w : Reconnecting) : Client.Event → List Report
  | .onOpen _ => [.opened]
  | .onFail _ => w.reportFailure .fail
  | .onClose _ normal =>
      if normal ∨ w.client.conState = .closing then [.close .normal]
      else w.reportFailure (.close .drop)
  | .timeoutReconnect => if w.client.conState = .closed then [.reconnecting] else []
  | .resume made =>
      if w.client.calling = some .reconnecting then reportConnect made else []
  | .runPosted made =>
      if w.client.posted.head? = some .connectImpl then reportConnect made else []
  | _ => []

/-- What `on_fail` or `on_close` reports when the client does not try again. -/
def lastReport : Client.Event → Report
  | .onClose _ _ => .close .drop
  | _ => .fail

theorem reports_of_isFailure {w : Reconnecting} {e : Client.Event} (h : w.client.IsFailure e) :
    w.reports e = w.reportFailure (lastReport e) := by
  cases e with
  | onFail c => rfl
  | onClose c normal =>
      obtain ⟨rfl, hstate⟩ := h
      rw [reports, if_neg (by simpa using hstate)]
      rfl
  | _ => exact h.elim

/-! ### Whole runs -/

/-- The invariant: the delays are in order, and the reconnections that were started are the
attempts made. -/
structure Inv (n : ℕ) (w : Reconnecting) : Prop where
  client : w.client.Inv
  backoff : w.backoff.Inv
  attempts : w.client.reconnAttempts = n
  made : w.client.reconnMade = w.started
  committed : w.client.committed ≤ n

theorem inv_init (n : ℕ) : (init n).Inv n :=
  ⟨Client.inv_init n, Backoff.inv_init, rfl, rfl, Nat.zero_le n⟩

/-- **Every step keeps the invariant.** -/
theorem Inv.step {n : ℕ} {w w' : Reconnecting} {e : Event} (h : w.Inv n)
    (hstep : w.step e = some w') : w'.Inv n := by
  cases e with
  | setReconnectDelay millis =>
      obtain rfl := Option.some.inj hstep
      exact ⟨h.client, Backoff.inv_setReconnectDelay _ _, h.attempts, h.made, h.committed⟩
  | setReconnectDelayMax millis =>
      obtain rfl := Option.some.inj hstep
      exact ⟨h.client, Backoff.inv_setReconnectDelayMax _ _, h.attempts, h.made, h.committed⟩
  | client e =>
      obtain ⟨t, ht, rfl⟩ := Option.map_eq_some_iff.mp hstep
      have hspends := h.client.spends (h.committed.trans_eq h.attempts.symm) ht
      have hattempts := hspends.attempts_eq.trans h.attempts
      refine ⟨h.client.step ht, h.backoff, hattempts, ?_,
        hspends.committed_le.trans_eq hattempts⟩
      rw [← h.made]
      exact hspends.made_eq

/-- What is promised of a state of the client with `n` attempts: the delays and their bounds;
at most `n` reconnections are started; a failure while there are fewer is reported by the
reconnect listener, and when that returns the timer is armed; and a failure when there are as
many is reported to the user as the last. -/
structure Bounded (n : ℕ) (w : Reconnecting) : Prop where
  delay_le : w.backoff.reconnDelay ≤ w.backoff.reconnDelayMax
  nextDelay_mem : ∀ made, w.backoff.reconnDelay ≤ w.backoff.nextDelay made ∧
    w.backoff.nextDelay made ≤ w.backoff.reconnDelayMax
  nextDelay_mono : ∀ made made', made ≤ made' →
    w.backoff.nextDelay made ≤ w.backoff.nextDelay made'
  started_le : w.started ≤ n
  retries : ∀ e t, w.client.IsFailure e → w.client.step e = some t → w.started < n →
    t.calling = some .reconnect ∧ t.armed = w.client.armed ∧
      w.reports e = [.reconnect w.started (w.backoff.nextDelay w.started)]
  rearms : w.client.calling = some .reconnect → ∀ made, ∃ t,
    w.client.step (.resume made) = some t ∧ t.timer = true ∧ t.armed = w.client.armed + 1
  exhausted : ∀ e t, w.client.IsFailure e → w.client.step e = some t → w.started = n →
    t.timer = false ∧ t.due = 0 ∧ t.calling = none ∧ t.armed = w.client.armed ∧
      w.reports e = [lastReport e]

theorem Inv.retries {n : ℕ} {w : Reconnecting} (h : w.Inv n) {e : Client.Event} {t : Client}
    (he : w.client.IsFailure e) (hstep : w.client.step e = some t) (hlt : w.started < n) :
    t.calling = some .reconnect ∧ t.armed = w.client.armed ∧
      w.reports e = [.reconnect w.started (w.backoff.nextDelay w.started)] := by
  obtain ⟨u, rfl, -, hattempts, hmade, harmed⟩ :=
    Client.exists_reconnect_of_isFailure h.client he hstep
  have hleft : w.client.reconnMade < w.client.reconnAttempts := by
    rwa [h.made, h.attempts]
  rw [reports_of_isFailure he, reportFailure, if_pos hleft, Client.reconnect,
    if_pos (by rwa [hmade, hattempts]), h.made]
  exact ⟨rfl, harmed, rfl⟩

theorem Inv.rearms {n : ℕ} {w : Reconnecting} (h : w.Inv n)
    (hcalling : w.client.calling = some .reconnect) (made : Bool) : ∃ t,
      w.client.step (.resume made) = some t ∧ t.timer = true ∧
        t.armed = w.client.armed + 1 := by
  have hrunning := h.client.running (by simp [Client.pending, hcalling])
  have hstep : w.client.step (.resume made) =
      some { w.client with calling := none }.armTimer := by
    rw [Client.step, Client.inLoop, if_pos hrunning, Client.resume, hcalling]
  exact ⟨_, hstep, rfl, rfl⟩

theorem Inv.exhausted {n : ℕ} {w : Reconnecting} (h : w.Inv n) {e : Client.Event} {t : Client}
    (he : w.client.IsFailure e) (hstep : w.client.step e = some t) (heq : w.started = n) :
    t.timer = false ∧ t.due = 0 ∧ t.calling = none ∧ t.armed = w.client.armed ∧
      w.reports e = [lastReport e] := by
  obtain ⟨u, rfl, ⟨htimer, hdue, hcalling⟩, hattempts, hmade, harmed⟩ :=
    Client.exists_reconnect_of_isFailure h.client he hstep
  have hnone : ¬ w.client.reconnMade < w.client.reconnAttempts := by
    rw [h.made, h.attempts]
    omega
  rw [reports_of_isFailure he, reportFailure, if_neg hnone, Client.reconnect,
    if_neg (by rwa [hmade, hattempts])]
  exact ⟨htimer, hdue, hcalling, harmed, rfl⟩

theorem Inv.bounded {n : ℕ} {w : Reconnecting} (h : w.Inv n) : w.Bounded n where
  delay_le := h.backoff
  nextDelay_mem := Backoff.nextDelay_mem h.backoff
  nextDelay_mono := fun _ _ => w.backoff.nextDelay_mono
  started_le := by
    have hcommitted := h.committed
    rw [Client.committed, h.made] at hcommitted
    omega
  retries := fun _ _ => h.retries
  rearms := h.rearms
  exhausted := fun _ _ => h.exhausted

/-- **The back-off is bounded** in every run: whatever values the setters are called with and
whatever happens to the client, with a fixed number of attempts. -/
theorem bounded_of_run {n : ℕ} {es : List Event} {w : Reconnecting}
    (h : Run (fun w e w' => w.step e = some w') (init n) es w) : w.Bounded n :=
  (h.invariant (fun hinv hstep => hinv.step hstep) (inv_init n)).bounded

/-- One reconnection after a failed attempt, with the delay raised above its maximum. -/
theorem bounded_of_run_one :
    (Reconnecting.mk
      { Client.init 1 with
        conState := .opening, reconnMade := 1, armed := 1, attempts := [1], thread := true,
        running := true, next := 2 } ⟨30000, 30000⟩ 1).Bounded 1 :=
  @bounded_of_run 1
    [.client .connect, .setReconnectDelay 30000, .client (.runPosted true),
      .client (.onFail 0), .client (.resume true), .client .expire,
      .client .timeoutReconnect, .client (.resume true)] _
    (run_iff_foldlM.mpr (by decide))

end Reconnecting

end MahjongAI
