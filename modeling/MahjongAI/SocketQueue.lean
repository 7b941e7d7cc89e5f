import MahjongAI.Runs
import Mathlib.Data.List.Perm.Basic

/-!
# The Packet Queue of a Socket

While a socket is not connected, `send_packet` queues what the user emits. The queue is
drained by `on_connected` on the network thread, and by `send_packet` itself once it finds
the socket connected. The two sides meet without any order between them: each takes one
atomic step at a time, and `Side` says whose step it is. The atomic steps are the reads and
the write of `m_connected`, each push and each test-and-pop under `m_packet_mutex`, and
each `m_client->send`.

No function here looks into a packet, so a packet is its number in the order of emission.

## Main results

* `SocketQueue.Ordered`: while every step is orderly, what has been sent, popped, queued
  and emitted is in the order of emission.
* `SocketQueue.orderly_or_broken`: the first step that is not orderly spoils the run.
* `SocketQueue.delivered_iff`: when both sides have returned, everything was sent once and
  in order if and only if every step was orderly.
* `SocketQueue.not_delivered`: an emit that found the socket unconnected and queues its
  packet when `on_connected` has returned.
-/

open Runs

namespace MahjongAI

namespace SocketQueue

/-! ### The two sides -/

/-- Where `on_connected` is: before the test of `m_connected`, before setting it, before a
test-and-pop, before sending what it popped, or back. -/
inductive Network
  | start
  | set
  | testing
  | sending (popped : ℕ)
  | returned
  deriving DecidableEq

/-- Where the user is: between two emits, or in `send_packet` with the packet `p`: before a
test-and-pop, before sending what it popped, before sending `p` itself, or before pushing
it. -/
inductive User
  | idle
  | testing (p : ℕ)
  | sending (popped p : ℕ)
  | sendingOwn (p : ℕ)
  | pushing (p : ℕ)
  deriving DecidableEq

/-- The socket and its two sides. -/
structure State where
  /-- `m_connected`. -/
  connected : Bool
  /-- `m_packet_queue`. -/
  queue : List ℕ
  /-- The packets that were passed to `m_client->send`. -/
  sent : List ℕ
  network : Network
  user : User
  /-- The packets that were emitted so far: the number of the next one. -/
  next : ℕ
  /-- The packets that there will be. -/
  total : ℕ
  deriving DecidableEq

/-- A socket that is not connected, with `queued` packets in its queue and `emits` packets
to come. -/
def init (queued emits : ℕ) : State where
  connected := false
  queue := List.range queued
  sent := []
  network := .start
  user := .idle
  next := queued
  total := queued + emits

/-- One atomic step of `on_connected`. -/
def onConnected (s : State) : Option State :=
  match s.network with
  | .start =>
      if s.connected then some { s with network := .returned }
      else some { s with network := .set }
  | .set => some { s with connected := true, network := .testing }
  | .testing =>
      match s.queue with
      | [] => some { s with network := .returned }
      | p :: queue => some { s with queue := queue, network := .sending p }
  | .sending p => some { s with sent := s.sent ++ [p], network := .testing }
  | .returned => none

/-- One atomic step of the emits, each of which is a `send_packet`. -/
def sendPacket (s : State) : Option State :=
  match s.user with
  | .idle =>
      if s.next < s.total then
        if s.connected then some { s with user := .testing s.next, next := s.next + 1 }
        else some { s with user := .pushing s.next, next := s.next + 1 }
      else none
  | .testing p =>
      match s.queue with
      | [] => some { s with user := .sendingOwn p }
      | q :: queue => some { s with queue := queue, user := .sending q p }
  | .sending q p => some { s with sent := s.sent ++ [q], user := .testing p }
  | .sendingOwn p => some { s with sent := s.sent ++ [p], user := .idle }
  | .pushing p => some { s with queue := s.queue ++ [p], user := .idle }

/-- Whose step it is. -/
inductive Side
  | network
  | user
  deriving DecidableEq

/-- One atomic step of one side. -/
def step (s : State) : Side → Option State
  | .network => onConnected s
  | .user => sendPacket s

namespace State

/-- `on_connected` and all emits have returned. -/
def Returned (s : State) : Prop :=
  s.network = .returned ∧ s.user = .idle ∧ s.next = s.total

/-- Every packet was sent, once, in the order of emission, and none is left in the queue. -/
def Delivered (s : State) : Prop :=
  s.sent = List.range s.total ∧ s.queue = []

/-- The step keeps the order: a side does not send a packet while the other side holds an
older one that it has popped, and the last packet is not pushed after `on_connected` has
found the queue empty. -/
def orderly (s : State) : Side → Bool
  | .network =>
      match s.network, s.user with
      | .sending p, .sending q _ => p < q
      | _, _ => true
  | .user =>
      match s.user, s.network with
      | .sending q _, .sending p => q < p
      | .sendingOwn _, .sending _ => false
      | .pushing _, .returned => s.next < s.total
      | _, _ => true

/-! ### Packets on their way -/

/-- The packet that `on_connected` has popped and not sent. -/
def networkHeld (s : State) : List ℕ :=
  match s.network with
  | .sending p => [p]
  | _ => []

/-- The packet that `send_packet` has popped and not sent. -/
def userHeld (s : State) : List ℕ :=
  match s.user with
  | .sending q _ => [q]
  | _ => []

/-- The packet that is being emitted. -/
def own (s : State) : List ℕ :=
  match s.user with
  | .idle => []
  | .testing p => [p]
  | .sending _ p => [p]
  | .sendingOwn p => [p]
  | .pushing p => [p]

end State

/-- The user is in the loop that drains the queue. -/
def User.Draining : User → Prop
  | .testing _ => True
  | .sending _ _ => True
  | _ => False

/-- **The order of emission**: sent, popped, queued and emitted packets, one after the
other. The two sides can have popped theirs in either order. -/
structure Ordered (s : State) : Prop where
  order : ∃ held : List ℕ, held.Perm (s.networkHeld ++ s.userHeld) ∧
    s.sent ++ (held ++ (s.queue ++ s.own)) = List.range s.next
  next_le : s.next ≤ s.total
  /-- The last test of `send_packet` found the queue empty, and only this side pushes. -/
  drained : ∀ p, s.user = .sendingOwn p → s.queue = []
  connected : s.connected = true ↔ s.network ≠ .start ∧ s.network ≠ .set
  /-- What is in the queue when `on_connected` has returned, the user sends. -/
  left : s.network = .returned → s.queue ≠ [] → s.next < s.total ∨ s.user.Draining

theorem ordered_init (queued emits : ℕ) : Ordered (init queued emits) where
  order := ⟨[], .nil, by simp [init, State.own]⟩
  next_le := Nat.le_add_right _ _
  drained _ h := absurd h (by simp [init])
  connected := by simp [init]
  left h := absurd h (by simp [init])

/-! ### Sorted lists -/

/-- The least element of a sorted list is its head. -/
theorem exists_cons_of_perm {held r : List ℕ} {p : ℕ} (hsorted : held.Pairwise (· < ·))
    (hperm : held.Perm (p :: r)) (hp : ∀ q ∈ r, p < q) :
    ∃ held', held = p :: held' ∧ held'.Perm r := by
  cases held with
  | nil => exact absurd hperm.length_eq (by simp)
  | cons a held' =>
      obtain rfl : a = p := by
        rcases List.mem_cons.mp (hperm.mem_iff.mp List.mem_cons_self) with hap | har
        · exact hap
        · rcases List.mem_cons.mp (hperm.mem_iff.mpr List.mem_cons_self) with hpa | hpheld
          · exact hpa.symm
          · have hlt := List.rel_of_pairwise_cons hsorted hpheld
            have hgt := hp a har
            omega
      exact ⟨held', rfl, (List.perm_cons a).mp hperm⟩

/-- A first part of the numbers up to `n` ends where the rest begins. -/
theorem le_of_append_eq_range {sent rest : List ℕ} {n x : ℕ} (h : sent ++ rest = List.range n)
    (hx : x ∈ rest) : sent.length ≤ x := by
  have hrest : rest = (List.range n).drop sent.length := by rw [← h, List.drop_left]
  obtain ⟨i, hi, rfl⟩ := List.getElem_of_mem hx
  simp only [hrest, List.getElem_drop, List.getElem_range]
  exact Nat.le_add_right _ _

/-- What follows a first part of the numbers up to `n` is its length. -/
theorem eq_length_of_prefix_range {sent : List ℕ} {n p : ℕ}
    (h : sent ++ [p] <+: List.range n) : p = sent.length := by
  obtain ⟨rest, hrest⟩ := h
  have hget : (sent ++ [p] ++ rest)[sent.length]? = some p := by simp
  rw [hrest] at hget
  obtain ⟨hlt, heq⟩ := List.getElem?_eq_some_iff.mp hget
  simpa using heq.symm

/-! ### Orderly steps -/

namespace Ordered

/-- All packets on their way are in order. -/
theorem pairwise {s : State} {held : List ℕ}
    (h : s.sent ++ (held ++ (s.queue ++ s.own)) = List.range s.next) :
    (held ++ (s.queue ++ s.own)).Pairwise (· < ·) := by
  have hsorted : (s.sent ++ (held ++ (s.queue ++ s.own))).Pairwise (· < ·) := by
    rw [h]
    exact List.pairwise_lt_range
  exact (List.pairwise_append.mp hsorted).2.1

/-- Sending the oldest of the popped packets keeps the order. -/
theorem send {s : State} {held r : List ℕ} {p : ℕ}
    (h : s.sent ++ (held ++ (s.queue ++ s.own)) = List.range s.next)
    (hperm : held.Perm (p :: r)) (hp : ∀ q ∈ r, p < q) :
    ∃ held', held'.Perm r ∧
      s.sent ++ [p] ++ (held' ++ (s.queue ++ s.own)) = List.range s.next := by
  obtain ⟨held', rfl, hrest⟩ :=
    exists_cons_of_perm (List.pairwise_append.mp (pairwise h)).1 hperm hp
  exact ⟨held', hrest, by rw [← h]; simp⟩

/-- A popped packet comes after the packets that were popped before it. -/
theorem pop {s : State} {held r queue : List ℕ} {p : ℕ}
    (h : s.sent ++ (held ++ (s.queue ++ s.own)) = List.range s.next)
    (hperm : held.Perm r) (hqueue : s.queue = p :: queue) :
    (held ++ [p]).Perm (p :: r) ∧
      s.sent ++ (held ++ [p] ++ (queue ++ s.own)) = List.range s.next := by
  refine ⟨(List.perm_append_singleton p held).trans (hperm.cons p), ?_⟩
  rw [← h, hqueue]
  simp

/-- An orderly step of `on_connected` keeps the order. -/
theorem onConnected {s t : State} (h : Ordered s) (horderly : s.orderly .network = true)
    (hstep : SocketQueue.onConnected s = some t) : Ordered t := by
  obtain ⟨held, hheld, horder⟩ := h.order
  rw [SocketQueue.onConnected] at hstep
  cases hnet : s.network with
  | start =>
      have hconnected : ¬ s.connected = true := by simp [h.connected, hnet]
      rw [hnet] at hstep
      obtain rfl := Option.some.inj ((if_neg hconnected).symm.trans hstep)
      refine ⟨⟨held, ?_, horder⟩, h.next_le, h.drained, ?_, ?_⟩
      · simpa [State.networkHeld, State.userHeld, hnet] using hheld
      · simp [hconnected]
      · simp
  | set =>
      rw [hnet] at hstep
      obtain rfl := Option.some.inj hstep
      refine ⟨⟨held, ?_, horder⟩, h.next_le, h.drained, ?_, ?_⟩
      · simpa [State.networkHeld, State.userHeld, hnet] using hheld
      · simp
      · simp
  | testing =>
      have hconnected : s.connected = true := h.connected.mpr (by simp [hnet])
      simp only [hnet] at hstep
      split at hstep
      · rename_i hqueue
        obtain rfl := Option.some.inj hstep
        refine ⟨⟨held, ?_, horder⟩, h.next_le, h.drained, ?_, ?_⟩
        · simpa [State.networkHeld, State.userHeld, hnet] using hheld
        · simp [hconnected]
        · exact fun _ hleft => absurd hqueue hleft
      · rename_i p queue hqueue
        obtain rfl := Option.some.inj hstep
        have hpop := pop horder hheld hqueue
        refine ⟨⟨held ++ [p], ?_, hpop.2⟩, h.next_le, ?_, ?_, ?_⟩
        · simpa [State.networkHeld, State.userHeld, hnet] using hpop.1
        · exact fun q hq => absurd (h.drained q hq) (by simp [hqueue])
        · simp [hconnected]
        · simp
  | sending p =>
      rw [hnet] at hstep
      obtain rfl := Option.some.inj hstep
      have hp : ∀ q ∈ s.userHeld, p < q := by
        intro q hq
        rw [State.userHeld] at hq
        cases huser : s.user with
        | sending q' p' =>
            obtain rfl : q = q' := by simpa [huser] using hq
            simpa [State.orderly, hnet, huser] using horderly
        | idle => simp [huser] at hq
        | testing p' => simp [huser] at hq
        | sendingOwn p' => simp [huser] at hq
        | pushing p' => simp [huser] at hq
      have hperm : held.Perm (p :: s.userHeld) := by
        simpa [State.networkHeld, hnet] using hheld
      obtain ⟨held', hheld', horder'⟩ := send horder hperm hp
      refine ⟨⟨held', ?_, horder'⟩, h.next_le, h.drained, ?_, ?_⟩
      · simpa [State.networkHeld, State.userHeld] using hheld'
      · simp [h.connected.mpr (by simp [hnet])]
      · simp
  | returned => simp [hnet] at hstep

/-- An orderly step of an emit keeps the order. -/
theorem sendPacket {s t : State} (h : Ordered s) (horderly : s.orderly .user = true)
    (hstep : SocketQueue.sendPacket s = some t) : Ordered t := by
  obtain ⟨held, hheld, horder⟩ := h.order
  rw [SocketQueue.sendPacket] at hstep
  cases huser : s.user with
  | idle =>
      rw [State.userHeld, huser] at hheld
      rw [State.own, huser] at horder
      have hnew : s.sent ++ (held ++ (s.queue ++ [s.next])) = List.range (s.next + 1) := by
        rw [List.range_succ, ← horder]
        simp
      simp only [huser] at hstep
      split_ifs at hstep with hnext hconnected
      · obtain rfl := Option.some.inj hstep
        exact ⟨⟨held, hheld, hnew⟩, hnext, by simp, h.connected, fun _ _ => .inr trivial⟩
      · obtain rfl := Option.some.inj hstep
        refine ⟨⟨held, hheld, hnew⟩, hnext, by simp, h.connected, fun hret => ?_⟩
        exact absurd (h.connected.mpr (by simp [show s.network = .returned from hret])) hconnected
  | testing p =>
      rw [State.userHeld, huser] at hheld
      simp only [huser] at hstep
      split at hstep
      · rename_i hqueue
        obtain rfl := Option.some.inj hstep
        rw [State.own, huser] at horder
        exact ⟨⟨held, hheld, horder⟩, h.next_le, fun _ _ => hqueue, h.connected,
          fun _ hleft => absurd hqueue hleft⟩
      · rename_i q queue hqueue
        obtain rfl := Option.some.inj hstep
        have hpop := pop horder hheld hqueue
        rw [State.own, huser] at hpop
        refine ⟨⟨held ++ [q], ?_, hpop.2⟩, h.next_le, by simp, h.connected,
          fun _ _ => .inr trivial⟩
        have hperm : (q :: (s.networkHeld ++ [])).Perm (s.networkHeld ++ [q]) := by
          rw [List.append_nil]
          exact (List.perm_append_singleton q _).symm
        exact hpop.1.trans hperm
  | sending q p =>
      rw [huser] at hstep
      obtain rfl := Option.some.inj hstep
      have hp : ∀ r ∈ s.networkHeld, q < r := by
        intro r hr
        rw [State.networkHeld] at hr
        cases hnet : s.network with
        | sending r' =>
            obtain rfl : r = r' := by simpa [hnet] using hr
            simpa [State.orderly, hnet, huser] using horderly
        | start => simp [hnet] at hr
        | set => simp [hnet] at hr
        | testing => simp [hnet] at hr
        | returned => simp [hnet] at hr
      have hperm : held.Perm (q :: s.networkHeld) := by
        rw [State.userHeld, huser] at hheld
        exact hheld.trans (List.perm_append_singleton q _)
      obtain ⟨held', hheld', horder'⟩ := send horder hperm hp
      rw [State.own, huser] at horder'
      refine ⟨⟨held', ?_, horder'⟩, h.next_le, by simp, h.connected, fun _ _ => .inr trivial⟩
      simpa [State.networkHeld, State.userHeld] using hheld'
  | sendingOwn p =>
      rw [huser] at hstep
      obtain rfl := Option.some.inj hstep
      have hqueue := h.drained p huser
      -- Nothing is popped: the other side would hold an older packet.
      have hnone : s.networkHeld = [] := by
        rw [State.networkHeld]
        cases hnet : s.network with
        | sending r => simp [State.orderly, hnet, huser] at horderly
        | start => rfl
        | set => rfl
        | testing => rfl
        | returned => rfl
      rw [State.userHeld, huser, hnone] at hheld
      obtain rfl := hheld.eq_nil
      rw [State.own, huser, hqueue] at horder
      have hempty : ([] : List ℕ).Perm (s.networkHeld ++ []) := by rw [hnone, List.append_nil]
      refine ⟨⟨[], hempty, ?_⟩, h.next_le, by simp, h.connected,
        fun _ hleft => absurd hqueue hleft⟩
      rw [← horder]
      simp [State.own, hqueue]
  | pushing p =>
      rw [huser] at hstep
      obtain rfl := Option.some.inj hstep
      rw [State.userHeld, huser] at hheld
      rw [State.own, huser] at horder
      refine ⟨⟨held, hheld, ?_⟩, h.next_le, by simp, h.connected, fun hret _ => .inl ?_⟩
      · rw [← horder]
        simp [State.own]
      · simpa [State.orderly, huser, show s.network = .returned from hret] using horderly

/-- **Orderly steps keep the order.** -/
theorem step {s t : State} {e : Side} (h : Ordered s) (horderly : s.orderly e = true)
    (hstep : SocketQueue.step s e = some t) : Ordered t := by
  cases e with
  | network => exact h.onConnected horderly hstep
  | user => exact h.sendPacket horderly hstep

/-- When both sides have returned, nothing is on its way, and nothing is left. -/
theorem delivered {s : State} (h : Ordered s) (hreturned : s.Returned) : s.Delivered := by
  obtain ⟨hnet, huser, hnext⟩ := hreturned
  have hqueue : s.queue = [] := by
    by_contra hleft
    rcases h.left hnet hleft with hlt | hdraining
    · omega
    · simp [huser, User.Draining] at hdraining
  obtain ⟨held, hheld, horder⟩ := h.order
  rw [State.networkHeld, hnet, State.userHeld, huser] at hheld
  obtain rfl := hheld.eq_nil
  rw [State.own, huser, hqueue, hnext] at horder
  exact ⟨by simpa using horder, hqueue⟩

end Ordered

/-! ### Steps that break the order -/

/-- The order is lost: a packet was sent before an older one, or one is stranded in the
queue. -/
def Broken (s : State) : Prop :=
  ¬ s.sent <+: List.range s.total ∨ s.Returned ∧ s.queue ≠ []

/-- What was sent stays sent. -/
theorem sent_prefix_of_step {s t : State} {e : Side} (hstep : step s e = some t) :
    s.sent <+: t.sent ∧ t.total = s.total := by
  cases e with
  | network =>
      rw [step, onConnected] at hstep
      repeat' split at hstep
      all_goals cases hstep
      all_goals exact ⟨by simp, rfl⟩
  | user =>
      rw [step, sendPacket] at hstep
      repeat' split at hstep
      all_goals cases hstep
      all_goals exact ⟨by simp, rfl⟩

/-- When both sides have returned, no step is left. -/
theorem step_of_returned {s : State} (h : s.Returned) (e : Side) : step s e = none := by
  obtain ⟨hnet, huser, hnext⟩ := h
  cases e with
  | network => rw [step, onConnected, hnet]
  | user =>
      rw [step, sendPacket, huser]
      exact if_neg (by omega)

/-- No later step restores the order. -/
theorem Broken.step {s t : State} {e : Side} (h : Broken s)
    (hstep : SocketQueue.step s e = some t) : Broken t := by
  rcases h with hsent | ⟨hreturned, -⟩
  · obtain ⟨hgrows, htotal⟩ := sent_prefix_of_step hstep
    exact .inl fun ht => hsent (hgrows.trans (htotal ▸ ht))
  · rw [step_of_returned hreturned e] at hstep
    exact absurd hstep (by simp)

theorem Broken.undelivered {s : State} (h : Broken s) : ¬ s.Delivered := by
  rintro ⟨hsent, hqueue⟩
  rcases h with hbroken | ⟨-, hleft⟩
  · exact hbroken (hsent ▸ List.prefix_rfl)
  · exact hleft hqueue

/-- A packet that is sent before an older one breaks the order. -/
theorem not_prefix_of_older {s : State} {held : List ℕ} {p q : ℕ}
    (h : s.sent ++ (held ++ (s.queue ++ s.own)) = List.range s.next)
    (hq : q ∈ held) (hqp : q < p) : ¬ s.sent ++ [p] <+: List.range s.total := by
  intro hsent
  have hp := eq_length_of_prefix_range hsent
  have hle := le_of_append_eq_range h (List.mem_append_left _ hq)
  omega

/-- Of two popped packets, one is older. -/
theorem lt_of_not_lt {s : State} {held : List ℕ} {p q : ℕ}
    (h : s.sent ++ (held ++ (s.queue ++ s.own)) = List.range s.next)
    (hheld : held.Perm [p, q]) (hpq : ¬ p < q) : q < p := by
  have hnodup := (List.pairwise_append.mp (Ordered.pairwise h)).1.imp Nat.ne_of_lt
  have hne : p ≠ q := by
    have := hheld.nodup_iff.mp hnodup
    simpa using this
  omega

/-- **A step that is not orderly breaks the order.** -/
theorem broken_of_not_orderly {s t : State} {e : Side} (h : Ordered s)
    (horderly : s.orderly e = false) (hstep : step s e = some t) : Broken t := by
  obtain ⟨held, hheld, horder⟩ := h.order
  rw [State.networkHeld, State.userHeld] at hheld
  cases e with
  | network =>
      rw [State.orderly] at horderly
      split at horderly
      · rename_i p q p' hnet huser
        rw [hnet, huser] at hheld
        have hqp := lt_of_not_lt horder hheld (by simpa using horderly)
        rw [step, onConnected, hnet] at hstep
        obtain rfl := Option.some.inj hstep
        exact .inl (not_prefix_of_older horder (hheld.mem_iff.mpr (by simp)) hqp)
      · exact absurd horderly (by simp)
  | user =>
      rw [State.orderly] at horderly
      split at horderly
      · rename_i q p' p huser hnet
        rw [hnet, huser] at hheld
        have hpq := lt_of_not_lt horder (hheld.trans (List.Perm.swap q p [])) (by simpa using horderly)
        rw [step, sendPacket, huser] at hstep
        obtain rfl := Option.some.inj hstep
        exact .inl (not_prefix_of_older horder (hheld.mem_iff.mpr (by simp)) hpq)
      · rename_i p r huser hnet
        rw [hnet, huser] at hheld
        have hr : r ∈ held := hheld.mem_iff.mpr (by simp)
        have hown : p ∈ s.queue ++ s.own := by simp [State.own, huser]
        have hrp := (List.pairwise_append.mp (Ordered.pairwise horder)).2.2 r hr p hown
        rw [step, sendPacket, huser] at hstep
        obtain rfl := Option.some.inj hstep
        exact .inl (not_prefix_of_older horder hr hrp)
      · rename_i p huser hnet
        have hnext : s.next = s.total := by
          have := h.next_le
          have : ¬ s.next < s.total := by simpa using horderly
          omega
        rw [step, sendPacket, huser] at hstep
        obtain rfl := Option.some.inj hstep
        exact .inr ⟨⟨hnet, rfl, hnext⟩, by simp⟩
      · exact absurd horderly (by simp)

/-! ### Whole interleavings -/

/-- **The first step that is not orderly spoils the run.** -/
theorem orderly_or_broken {s t : State} {es : List Side} (hs : Ordered s)
    (h : Run (fun s e t => step s e = some t) s es t) :
    Run (fun s e t => step s e = some t ∧ s.orderly e = true) s es t ∧ Ordered t ∨ Broken t := by
  induction h with
  | nil => exact .inl ⟨.nil s, hs⟩
  | @snoc t u es e _ hlast ih =>
      rcases ih with ⟨hrun, hordered⟩ | hbroken
      · cases horderly : t.orderly e with
        | true => exact .inl ⟨hrun.snoc ⟨hlast, horderly⟩, hordered.step horderly hlast⟩
        | false => exact .inr (broken_of_not_orderly hordered horderly hlast)
      · exact .inr (hbroken.step hlast)

/-- **A socket that connects delivers in orderly interleavings, and in no others**: when
`on_connected` and all emits have returned, the packets that were queued and emitted have
been sent, each once and in the order of emission, and the queue is empty, if and only if
every step was orderly. -/
theorem delivered_iff {queued emits : ℕ} {es : List Side} {s : State}
    (h : Run (fun s e t => step s e = some t) (init queued emits) es s) (hreturned : s.Returned) :
    s.Delivered ↔
      Run (fun s e t => step s e = some t ∧ s.orderly e = true) (init queued emits) es s := by
  constructor
  · intro hdelivered
    rcases orderly_or_broken (ordered_init queued emits) h with ⟨hrun, -⟩ | hbroken
    · exact hrun
    · exact absurd hdelivered hbroken.undelivered
  · intro hrun
    have hordered := hrun.invariant (fun hs hstep => hs.step hstep.2 hstep.1)
      (ordered_init queued emits)
    exact hordered.delivered hreturned

/-- One queued packet and two emits, the first of which still finds the socket unconnected
and pushes its packet while `on_connected` drains the queue. -/
theorem delivered_iff_interleaved :
    (State.mk true [] [0, 1, 2] .returned .idle 3 3).Delivered ↔
      Run (fun s e t => step s e = some t ∧ s.orderly e = true) (init 1 2)
        [.user, .network, .network, .network, .user, .network, .network, .user, .user,
          .network, .user, .network] (State.mk true [] [0, 1, 2] .returned .idle 3 3) :=
  delivered_iff (run_iff_foldlM.mpr (by decide)) ⟨rfl, rfl, rfl⟩

/-- The emit reads `m_connected` before `on_connected` sets it and pushes after
`on_connected` has found the queue empty: the packet stays in the queue. -/
theorem not_delivered :
    ¬ ∀ (queued emits : ℕ) (es : List Side) (s : State),
      Run (fun s e t => step s e = some t) (init queued emits) es s → s.Returned →
        s.Delivered := by
  intro h
  have hrun : [Side.user, .network, .network, .network, .user].foldlM step (init 0 1) =
      some (State.mk true [0] [] .returned .idle 1 1) := by
    decide
  have hdelivered := h _ _ _ _ (run_iff_foldlM.mpr hrun) ⟨rfl, rfl, rfl⟩
  exact absurd hdelivered.2 (by simp)

end SocketQueue

end MahjongAI
