import MahjongAI.Namespaces

/-!
# The Steps of a Client

What each event of `Namespaces.step` does, and the invariant over the runs. Beside what holds
of the sockets alone, `Namespaces.Linked` says what they have to do with the connection: none
has its namespace while there is no connection, and while one is open each has asked for its
namespace on it.

## Main results

* `Namespaces.effect_of_step`: what an event does.
* `Namespaces.inv_of_run`: `Namespaces.Inv` and `Namespaces.Linked` hold in every run.
-/

open Runs

namespace MahjongAI

namespace Namespaces

/-! ### One event -/

/-- The message that an event gives to a socket of the namespace. -/
def given (nsp : List Char) (id : ℕ) : NamespaceEvent → Option Packet
  | .emit _ i name msglist packId =>
      if i = id then some (Packet.ofMessage nsp (toArrayMessage name msglist) packId false)
      else none
  | .ack i msgId ackMessage =>
      if i = id then some (Packet.ofMessage nsp (.array ackMessage) msgId true) else none
  | _ => none

/-- **What an event does**: one socket is called, or one of the functions of the client. -/
inductive Effect (s : Namespaces) : NamespaceEvent → Namespaces → Prop
  | call {e : NamespaceEvent} (t : Thread) (id : ℕ) (op : Socket → Socket × List Act)
      (hid : id < s.made)
      (hdoes : ∀ k : Socket, k.Sound →
        Socket.Does k False (given k.nsp id e).toList (op k).1 (op k).2)
      (hwatched : ∀ k : Socket, k.Watched → (op k).1.Watched)
      (hothers : ∀ nsp i, i ≠ id → given nsp i e = none) :
      Effect s e (s.call t op id)
  | socket (t : Thread) (nsp : List Char) : Effect s (.socket t nsp) (s.getSocket t nsp)
  | close (t : Thread) : Effect s (.close t) (s.close t)
  | connect (honline : s.online = false) : Effect s .connect { s with conState := .opening }
  | onOpen (honline : s.online = false) (hposted : s.posted = []) : Effect s .onOpen s.onOpen
  | onFail : Effect s .onFail s.onClose
  | onClose : Effect s .onClose s.onClose
  | receive (p : Packet) (honline : s.online = true) : Effect s (.receive p) (s.receive p)
  | run {id : ℕ} {p : Packet} {rest : List (ℕ × Packet)} (hposted : s.posted = (id, p) :: rest) :
      Effect s .run
        { s with posted := rest, log := s.log ++ [sendImpl s.conState .user id p] }

theorem effect_of_step {s s' : Namespaces} {e : NamespaceEvent} (h : s.step e = some s') :
    Effect s e s' := by
  cases e with
  | socket t nsp =>
      obtain rfl := Option.some.inj h
      exact Effect.socket t nsp
  | emit t id name msglist packId =>
      simp only [step, Option.ite_none_right_eq_some, Option.some.injEq] at h
      obtain ⟨hid, rfl⟩ := h
      refine Effect.call t id _ hid (fun k hk => ?_) (fun k hk => ?_) (fun nsp i hi => ?_)
      · rw [given, if_pos rfl]
        exact Socket.does_sendPacket hk rfl (isMessage_ofMessage _ _ _ _)
      · exact Socket.watched_sendPacket hk _
      · rw [given, if_neg (Ne.symm hi)]
  | ack id msgId ackMessage =>
      simp only [step, Option.ite_none_right_eq_some, Option.some.injEq] at h
      obtain ⟨hid, rfl⟩ := h
      refine Effect.call .network id _ hid (fun k hk => ?_) (fun k hk => ?_) (fun nsp i hi => ?_)
      · rw [given, if_pos rfl]
        exact Socket.does_sendPacket hk rfl (isMessage_ofMessage _ _ _ _)
      · exact Socket.watched_sendPacket hk _
      · rw [given, if_neg (Ne.symm hi)]
  | closeSocket t id =>
      simp only [step, Option.ite_none_right_eq_some, Option.some.injEq] at h
      obtain ⟨hid, rfl⟩ := h
      exact Effect.call t id _ hid (fun k hk => Socket.does_close hk)
        (fun k hk => Socket.watched_close hk) fun _ _ _ => rfl
  | close t =>
      obtain rfl := Option.some.inj h
      exact Effect.close t
  | connect =>
      simp only [step, Option.ite_none_left_eq_some, Option.some.injEq] at h
      obtain ⟨honline, rfl⟩ := h
      exact Effect.connect (by simpa using honline)
  | onOpen =>
      simp only [step, Option.ite_none_left_eq_some, Option.some.injEq, not_or, not_not] at h
      obtain ⟨⟨honline, hposted⟩, rfl⟩ := h
      exact Effect.onOpen (by simpa using honline) hposted
  | onFail =>
      simp only [step, Option.ite_none_left_eq_some, Option.some.injEq] at h
      obtain ⟨-, rfl⟩ := h
      exact Effect.onFail
  | onClose =>
      simp only [step, Option.ite_none_right_eq_some, Option.some.injEq] at h
      obtain ⟨-, rfl⟩ := h
      exact Effect.onClose
  | receive p =>
      simp only [step, Option.ite_none_right_eq_some, Option.some.injEq] at h
      obtain ⟨honline, rfl⟩ := h
      exact Effect.receive p honline
  | expire id =>
      simp only [step, Option.ite_none_right_eq_some, Option.some.injEq] at h
      obtain ⟨⟨hid, -⟩, rfl⟩ := h
      exact Effect.call .network id _ hid (fun k hk => Socket.does_expire hk)
        (fun k _ => Socket.watched_onClose _) fun _ _ _ => rfl
  | abort id w =>
      simp only [step, Option.ite_none_right_eq_some, Option.some.injEq] at h
      obtain ⟨⟨hid, -⟩, rfl⟩ := h
      exact Effect.call .network id _ hid (fun k hk => Socket.does_abort hk w)
        (fun k _ => Socket.watched_onClose _) fun _ _ _ => rfl
  | run =>
      rw [step, Namespaces.run] at h
      split at h
      · exact absurd h (by simp)
      · rename_i id p rest hposted
        obtain rfl := Option.some.inj h
        exact Effect.run hposted

/-! ### The invariant over runs -/

theorem Inv.state {s : Namespaces} (h : s.Inv) (con : ConState) (online : Bool) :
    ({ s with conState := con, online := online } : Namespaces).Inv :=
  { h with }

/-- A connection opens when no socket has its namespace and nothing is posted; the other entries
are made at any time. -/
theorem Inv.mark {s : Namespaces} (h : s.Inv) {m : Mark} (hact : ∀ t id a, m ≠ .act t id a)
    (hgated : Gated s.log m)
    (hopened : m = .opened → (∀ id, (s.socket id).connected = false) ∧ s.posted = []) :
    ({ s with log := s.log ++ [m] } : Namespaces).Inv := by
  have hmem : ∀ t id a, .act t id a ∈ s.log ++ [m] ↔ .act t id a ∈ s.log := by
    intro t id a
    rw [List.mem_append, or_iff_left]
    intro ha
    exact hact t id a (List.mem_singleton.mp ha).symm
  refine ⟨h.keys, h.registered, h.sound, fun id hid => ?_, fun id p hp hconnect => ?_,
    along_concat.mpr ⟨h.gated, hgated⟩,
    along_concat.mpr ⟨h.silent, fun t id a hm => absurd hm (hact t id a)⟩,
    fun t id a ha => h.acts t id a ((hmem t id a).mp ha), fun id => ?_, fun t id hid => ?_, h.made⟩
  · refine (h.confirmed id hid).append fun hm => ?_
    have hfalse := (hopened (List.mem_singleton.mp hm).symm).1 id
    have htrue : (s.socket id).connected = true := hid
    rw [hfalse] at htrue
    exact absurd htrue (by simp)
  · refine (h.posted id p hp hconnect).append fun hm => ?_
    have hempty := (hopened (List.mem_singleton.mp hm).symm).2
    have hmem' : (id, p) ∈ s.posted := hp
    rw [hempty] at hmem'
    exact absurd hmem' (by simp)
  · simp only [hmem]
    exact h.ended id
  · exact h.closing t id ((hmem t id _).mp hid)

/-- The next `send_impl` sends what was gated when it was posted. -/
theorem Inv.run {s : Namespaces} (h : s.Inv) {id : ℕ} {p : Packet} {rest : List (ℕ × Packet)}
    (hposted : s.posted = (id, p) :: rest) :
    ({ s with posted := rest, log := s.log ++ [sendImpl s.conState .user id p] } :
      Namespaces).Inv := by
  have hact : ∀ t i a, sendImpl s.conState .user id p ≠ .act t i a := by
    intro t i a
    rcases sendImpl_eq s.conState .user id p with ⟨-, heq⟩ | ⟨-, heq⟩ <;> simp [heq]
  have hcarries : ∀ i q, (sendImpl s.conState .user id p).carries = some (i, q) →
      i = id ∧ q = p := by
    intro i q hi
    rcases sendImpl_eq s.conState .user id p with ⟨-, heq⟩ | ⟨-, heq⟩
    · rw [heq] at hi
      obtain ⟨rfl, rfl⟩ := Prod.mk.inj (Option.some.inj hi)
      exact ⟨rfl, rfl⟩
    · rw [heq] at hi
      exact absurd hi (by simp [Mark.carries])
  have hmark : ({ s with log := s.log ++ [sendImpl s.conState .user id p] } : Namespaces).Inv := by
    refine h.mark hact (fun i q hi hconnect => ?_) fun hopened => ?_
    · obtain ⟨rfl, rfl⟩ := hcarries i q hi
      exact h.posted i q (by rw [hposted]; simp) hconnect
    · rcases sendImpl_eq s.conState .user id p with ⟨-, heq⟩ | ⟨-, heq⟩ <;> simp [heq] at hopened
  exact { hmark with
    posted := fun i q hq => hmark.posted i q (by rw [hposted]; exact List.mem_cons_of_mem _ hq) }

/-- What holds of each socket once it was called, and stays so when others are. -/
theorem foldl_establish {t : Thread} {op : Socket → Socket × List Act}
    {Q : Namespaces → ℕ → Prop}
    (hop : ∀ k : Socket, k.Sound → Socket.Does k False [] (op k).1 (op k).2)
    (hest : ∀ s : Namespaces, s.Inv → ∀ id < s.made, Q (s.call t op id) id)
    (hkeep : ∀ s : Namespaces, s.Inv → ∀ id < s.made, ∀ i, Q s i → Q (s.call t op id) i) :
    ∀ (ids : List ℕ) (s : Namespaces), s.Inv → (∀ id ∈ ids, id < s.made) →
      ∀ i ∈ ids, Q (ids.foldl (fun s id => s.call t op id) s) i
  | [], _, _, _, _, hi => absurd hi (by simp)
  | id :: ids, s, h, hids, i, hi => by
      have hid := hids id (by simp)
      have hcall := h.call (t := t) hid (hop _ (h.sound id)) False.elim
      have hrest : ∀ id' ∈ ids, id' < (s.call t op id).made :=
        fun id' hid' => hids id' (List.mem_cons_of_mem id hid')
      rcases List.mem_cons.mp hi with rfl | hi
      · exact (foldl_call (P := fun u => Q u i) (fun u hu hQ id' hid' => hkeep u hu id' hid' i hQ)
          hop ids (s.call t op i) hcall (hest s h i hid) hrest).2
      · exact foldl_establish hop hest hkeep ids (s.call t op id) hcall hrest i hi

theorem Inv.invoke_establish {s : Namespaces} (h : s.Inv) {t : Thread}
    {op : Socket → Socket × List Act} {Q : Namespaces → ℕ → Prop}
    (hop : ∀ k : Socket, k.Sound → Socket.Does k False [] (op k).1 (op k).2)
    (hest : ∀ s : Namespaces, s.Inv → ∀ id < s.made, Q (s.call t op id) id)
    (hkeep : ∀ s : Namespaces, s.Inv → ∀ id < s.made, ∀ i, Q s i → Q (s.call t op id) i)
    {id : ℕ} (hid : id < s.made) (hclient : (s.socket id).client = true) :
    Q (s.invoke t op) id := by
  refine foldl_establish hop hest hkeep _ s h (fun i hi => ?_) id ?_
  · obtain ⟨⟨nsp, i⟩, hmem, rfl⟩ := List.mem_map.mp hi
    exact ((h.registered nsp i).mp hmem).1
  · exact List.mem_map_of_mem ((h.registered (s.socket id).nsp id).mpr ⟨hid, hclient, rfl⟩)

/-- A question for the namespace `nsp`. -/
def IsQuestion (nsp : List Char) (p : Packet) : Prop :=
  p.type = Packet.typeConnect ∧ p.nsp = nsp

/-- The socket has asked for the namespace: the question was sent since the connection opened,
or its `send_impl` is posted. -/
def Asked (s : Namespaces) (id : ℕ) (nsp : List Char) : Prop :=
  Since (fun m => ∃ t p, m = .sent t id p ∧ IsQuestion nsp p) s.log ∨
    ∃ p, (id, p) ∈ s.posted ∧ IsQuestion nsp p

/-- What is sent and posted later leaves a question asked. -/
theorem Asked.mono {s s' : Namespaces} {id : ℕ} {nsp : List Char} (h : s.Asked id nsp)
    {l : List Mark} {l' : List (ℕ × Packet)} (hlog : s'.log = s.log ++ l)
    (hposted : s'.posted = s.posted ++ l') (hl : .opened ∉ l) : s'.Asked id nsp := by
  rcases h with h | ⟨p, hp, hquestion⟩
  · exact Or.inl (hlog ▸ h.append hl)
  · exact Or.inr ⟨p, by rw [hposted]; exact List.mem_append_left _ hp, hquestion⟩

/-- An open socket has asked for its namespace on the present connection, and as long as the
namespace is not confirmed, a wait is pending. -/
def Attended (s : Namespaces) (id : ℕ) : Prop :=
  (s.socket id).Watched ∧ ((s.socket id).client = true → (s.socket id).nsp ≠ ['/'] →
    s.Asked id (s.socket id).nsp)

/-- What the sockets have to do with the connection. -/
structure Linked (s : Namespaces) : Prop where
  offline : s.online = false → ∀ id, (s.socket id).connected = false
  online : s.conState = .opened → s.online = true
  attended : s.conState = .opened → ∀ id < s.made, s.Attended id

theorem linked_init : init.Linked where
  offline := fun _ _ => rfl
  online := fun hcon => absurd hcon (by decide)
  attended := fun hcon => absurd hcon (by decide)

section Call

variable {s : Namespaces} {t : Thread} {op : Socket → Socket × List Act} {id : ℕ}
  {confirmed : Prop} {ps : List Packet}

theorem Attended.call {i : ℕ} (h : s.Attended i) (hdoes : s.Does op id confirmed ps)
    (hwatched : (s.socket id).Watched → (op (s.socket id)).1.Watched) :
    (s.call t op id).Attended i := by
  have hasked : ∀ nsp, s.Asked i nsp → (s.call t op id).Asked i nsp := fun nsp hasked =>
    hasked.mono rfl rfl opened_notMem_marks
  rw [Attended, call_socket]
  by_cases hi : i = id
  · subst hi
    rw [if_pos rfl, hdoes.nsp]
    refine ⟨hwatched h.1, fun hclient hnsp => hasked _ (h.2 ?_ hnsp)⟩
    rcases hdoes.ends with ⟨-, hlive, -⟩ | ⟨-, hsame⟩
    · exact hlive
    · rw [← hsame, hclient]
  · rw [if_neg hi]
    exact ⟨h.1, fun hclient hnsp => hasked _ (h.2 hclient hnsp)⟩

theorem connected_call {i : ℕ} (h : (s.socket i).connected = false)
    (hdoes : s.Does op id False ps) : ((s.call t op id).socket i).connected = false := by
  rw [call_socket]
  split
  · rename_i hi
    subst hi
    by_contra hconnected
    rcases hdoes.connected (by simpa using hconnected) with hc | hc
    · rw [h] at hc
      exact absurd hc (by simp)
    · exact hc
  · exact h

theorem Linked.call (h : s.Linked) (hdoes : s.Does op id confirmed ps)
    (hconfirmed : confirmed → s.online = true)
    (hwatched : (s.socket id).Watched → (op (s.socket id)).1.Watched) :
    (s.call t op id).Linked where
  offline := fun hoffline i => by
    have hfalse : confirmed → False := fun hc => by
      have := hconfirmed hc
      rw [show s.online = false from hoffline] at this
      exact absurd this (by simp)
    exact connected_call (h.offline hoffline i)
      { hdoes with connected := fun hc => (hdoes.connected hc).imp_right hfalse }
  online := h.online
  attended := fun hcon i hi => (h.attended hcon i hi).call hdoes hwatched

end Call

/-- `send_connect` on an open connection attends to a socket. -/
theorem attended_sendConnect {s : Namespaces} (h : s.Inv) (hcon : s.conState = .opened)
    (t : Thread) (id : ℕ) : (s.call t Socket.sendConnect id).Attended id := by
  have hdoes := Socket.does_sendConnect (h.sound id)
  rw [Attended, call_socket, if_pos rfl, hdoes.nsp]
  by_cases hask : (s.socket id).client = true ∧ (s.socket id).nsp ≠ ['/']
  · obtain ⟨hclient, hnsp⟩ := hask
    have hsend : .send (Packet.ofType Packet.typeConnect (s.socket id).nsp .nullptr) ∈
        (s.socket id).sendConnect.2 := by
      rw [Socket.sendConnect, if_pos ⟨hclient, hnsp⟩]
      exact List.mem_singleton_self _
    have hquestion : IsQuestion (s.socket id).nsp
        (Packet.ofType Packet.typeConnect (s.socket id).nsp .nullptr) := ⟨rfl, rfl⟩
    refine ⟨fun _ _ => Or.inr ?_, fun _ _ => ?_⟩
    · rw [Socket.sendConnect, if_pos ⟨hclient, hnsp⟩]
      rfl
    · cases t with
      | user =>
          exact Or.inr ⟨_, List.mem_append_right _ (mem_posts.mpr ⟨rfl, rfl, hsend⟩), hquestion⟩
      | network =>
          refine Or.inl (Since.of_mem _ (mem_marks.mpr (Or.inr ⟨rfl, _, hsend, rfl⟩))
            ⟨.network, _, ?_, hquestion⟩ opened_notMem_marks)
          rw [sendImpl, if_pos hcon]
  · rw [Socket.sendConnect, if_neg hask]
    exact ⟨fun hclient hnsp => absurd ⟨hclient, hnsp⟩ hask,
      fun hclient hnsp => absurd ⟨hclient, hnsp⟩ hask⟩

/-- A closed socket needs no attention. -/
theorem attended_of_dead {s : Namespaces} {id : ℕ} (h : (s.socket id).client = false) :
    s.Attended id := by
  have hfalse : ¬(s.socket id).client = true := by simp [h]
  exact ⟨fun hclient => absurd hclient hfalse, fun hclient => absurd hclient hfalse⟩

theorem Linked.getSocket {s : Namespaces} (h : s.Inv) (hl : s.Linked) (t : Thread)
    (nsp : List Char) : (s.getSocket t nsp).Linked := by
  have hoffline : s.online = false →
      ∀ id, ((s.add (fullName nsp)).socket id).connected = false := by
    intro honline id
    rw [add_socket]
    split
    · rfl
    · exact hl.offline honline id
  rcases getSocket_cases s t nsp with heq | ⟨hnew, ⟨hcon, heq⟩ | ⟨hcon, heq⟩⟩
  · rwa [heq]
  · rw [heq]
    have hadd := h.add hnew
    have hdoes := Socket.does_sendConnect (hadd.sound s.made)
    refine ⟨fun honline id => connected_call (hoffline honline id) hdoes, hl.online,
      fun _ id hid => ?_⟩
    by_cases hmade : id = s.made
    · subst hmade
      exact attended_sendConnect hadd hcon t s.made
    · have hold : id < s.made := lt_of_le_of_ne (Nat.lt_succ_iff.mp hid) hmade
      have hkeep := hl.attended hcon id hold
      refine Attended.call ?_ hdoes Socket.watched_sendConnect
      rw [Attended, add_socket, if_neg hmade]
      exact hkeep
  · rw [heq]
    exact ⟨hoffline, hl.online, fun hopened => absurd hopened hcon⟩

/-- A connection has opened. -/
def opened (s : Namespaces) : Namespaces :=
  { s with conState := .opened, online := true, log := s.log ++ [.opened] }

theorem Inv.opened {s : Namespaces} (h : s.Inv) (hl : s.Linked) (honline : s.online = false)
    (hposted : s.posted = []) : s.opened.Inv :=
  (h.mark (by simp) (by simp [Gated, Mark.carries])
    fun _ => ⟨hl.offline honline, hposted⟩).state .opened true

/-- Every open socket has asked for its namespace. -/
theorem inv_asked {s : Namespaces} (h : s.Inv) (hl : s.Linked) (honline : s.online = false)
    (hposted : s.posted = []) :
    (s.opened.invoke .network Socket.sendConnect).Inv ∧
      (s.opened.invoke .network Socket.sendConnect).Linked := by
  let t := s.opened
  have ht : t.Inv := h.opened hl honline hposted
  have hdoes : ∀ k : Socket, k.Sound → Socket.Does k False [] k.sendConnect.1 k.sendConnect.2 :=
    fun k hk => Socket.does_sendConnect hk
  obtain ⟨hinv, hcon, hon, hmade, hclient⟩ := ht.invoke (t := .network)
    (P := fun u => u.conState = .opened ∧ u.online = true ∧ u.made = t.made ∧
      ∀ i, (u.socket i).client = true → (t.socket i).client = true)
    ⟨rfl, rfl, rfl, fun _ hi => hi⟩ hdoes fun u hu hP id hid =>
      ⟨hP.1, hP.2.1, hP.2.2.1, fun i hi => hP.2.2.2 i (client_call (hdoes _ (hu.sound id)) hi)⟩
  have hlinked : (t.invoke .network Socket.sendConnect).Linked := by
    refine ⟨fun hoffline => ?_, fun _ => hon, fun _ id hid => ?_⟩
    · rw [hon] at hoffline
      exact absurd hoffline (by simp)
    · by_cases hlive : ((t.invoke .network Socket.sendConnect).socket id).client = true
      · refine (ht.invoke_establish (Q := fun u i => u.conState = .opened → u.Attended i) hdoes
          (fun u hu i _ hopened => attended_sendConnect hu hopened .network i)
          (fun u hu i _ j hj hopened => ?_) (hmade ▸ hid) (hclient id hlive)) hcon
        exact (hj hopened).call (hdoes _ (hu.sound i)) Socket.watched_sendConnect
      · exact attended_of_dead (by simpa using hlive)
  exact ⟨hinv, hlinked⟩

theorem inv_onOpen {s : Namespaces} (h : s.Inv) (hl : s.Linked) (honline : s.online = false)
    (hposted : s.posted = []) : s.onOpen.Inv ∧ s.onOpen.Linked := by
  obtain ⟨hinv, hlinked⟩ := inv_asked h hl honline hposted
  exact ⟨hinv.getSocket .network [], hlinked.getSocket hinv .network []⟩

/-- A connection has gone down. -/
def downed (s : Namespaces) : Namespaces :=
  { s with conState := .closed, log := s.log ++ [.down] }

theorem Inv.downed {s : Namespaces} (h : s.Inv) : s.downed.Inv :=
  (h.mark (by simp) (by simp [Gated, Mark.carries]) (by simp)).state .closed s.online

theorem inv_onClose {s : Namespaces} (h : s.Inv) : s.onClose.Inv ∧ s.onClose.Linked := by
  let t := s.downed
  have ht : t.Inv := h.downed
  have hdoes : ∀ k : Socket, k.Sound → Socket.Does k False [] k.onDisconnect.1 k.onDisconnect.2 :=
    fun k hk => Socket.does_onDisconnect hk
  obtain ⟨hinv, hcon, hsame⟩ := ht.invoke (t := .network) (P := fun u => u.conState = .closed ∧
      ∀ i, (t.socket i).connected = false → (u.socket i).connected = false)
    ⟨rfl, fun _ hi => hi⟩ hdoes fun u hu hP id _ =>
      ⟨hP.1, fun i hi => connected_call (hP.2 i hi) (hdoes _ (hu.sound id))⟩
  have hoffline : ∀ id, ((t.invoke .network Socket.onDisconnect).socket id).connected = false := by
    intro id
    by_cases hconnected : (t.socket id).connected = true
    · have hclient := ((ht.sound id).connected hconnected).1
      refine ht.invoke_establish (Q := fun u i => (u.socket i).connected = false) hdoes
        (fun u hu i _ => ?_) (fun u hu i _ j hj => connected_call hj (hdoes _ (hu.sound i)))
        (ht.made id hclient) hclient
      rw [call_socket, if_pos rfl, Socket.onDisconnect]
      split
      · rfl
      · rename_i hnot
        by_contra hc
        have hc : (u.socket i).connected = true := by simpa using hc
        exact hnot ⟨((hu.sound i).connected hc).1, hc⟩
    · exact hsame id (by simpa using hconnected)
  refine ⟨hinv.state _ false, fun _ => hoffline, fun hopened => ?_, fun hopened => ?_⟩
  · rw [show s.onClose.conState = .closed from hcon] at hopened
    exact absurd hopened (by decide)
  · rw [show s.onClose.conState = .closed from hcon] at hopened
    exact absurd hopened (by decide)

/-- A connection that is not open has nothing to attend to. -/
theorem Linked.state {s : Namespaces} (h : s.Linked) {con : ConState} (hcon : con ≠ .opened) :
    ({ s with conState := con } : Namespaces).Linked :=
  ⟨h.offline, fun hopened => absurd hopened hcon, fun hopened => absurd hopened hcon⟩

theorem inv_close {s : Namespaces} (h : s.Inv) (hl : s.Linked) (t : Thread) :
    (s.close t).Inv ∧ (s.close t).Linked := by
  have hclosing : ({ s with conState := .closing } : Namespaces).Inv := h.state .closing s.online
  exact hclosing.invoke (hl.state (by decide)) (fun k hk => Socket.does_close hk)
    fun u hu hul id _ => hul.call (Socket.does_close (hu.sound id)) False.elim Socket.watched_close

/-- A packet goes to the socket of its namespace. -/
theorem receive_cases {s : Namespaces} (h : s.Inv) (p : Packet) :
    s.receive p = s ∨ ∃ id < s.made, (s.socket id).nsp = p.nsp ∧ s.receive p =
      ({ s with log := s.log ++ [.received id p] } : Namespaces).call .network
        (Socket.onMessagePacket p) id := by
  rw [receive]
  split
  · rename_i id hlookup
    obtain ⟨es, es', hsplit, -⟩ := List.lookup_eq_some_iff.mp hlookup
    have hmem : (p.nsp, id) ∈ s.sockets := by
      rw [hsplit]
      simp
    obtain ⟨hid, -, hnsp⟩ := (h.registered p.nsp id).mp hmem
    exact Or.inr ⟨id, hid, hnsp, rfl⟩
  · exact Or.inl rfl

/-- A packet is handed to a socket. -/
theorem Inv.received {s : Namespaces} (h : s.Inv) (id : ℕ) (p : Packet) :
    ({ s with log := s.log ++ [.received id p] } : Namespaces).Inv :=
  h.mark (by simp) (by simp [Gated, Mark.carries]) (by simp)

theorem inv_receive {s : Namespaces} (h : s.Inv) (hl : s.Linked) (honline : s.online = true)
    (p : Packet) : (s.receive p).Inv ∧ (s.receive p).Linked := by
  rcases receive_cases h p with heq | ⟨id, hid, hnsp, heq⟩
  · rw [heq]
    exact ⟨h, hl⟩
  · rw [heq]
    let t : Namespaces := { s with log := s.log ++ [.received id p] }
    have ht : t.Inv := h.received id p
    have htl : t.Linked := ⟨hl.offline, hl.online, fun hcon i hi =>
      ⟨(hl.attended hcon i hi).1, fun hclient hnsp =>
        ((hl.attended hcon i hi).2 hclient hnsp).mono rfl (List.append_nil _).symm (by simp)⟩⟩
    have hdoes := Socket.does_onMessagePacket (ht.sound id) p
    exact ⟨ht.call hid hdoes fun hc => Since.concat _ ⟨p, rfl, hc.1, hc.2⟩,
      htl.call hdoes (fun _ => honline) fun hk => Socket.watched_onMessagePacket hk p⟩

/-- A question that was posted is sent on an open connection. -/
theorem Linked.run {s : Namespaces} (hl : s.Linked) {id : ℕ} {p : Packet}
    {rest : List (ℕ × Packet)} (hposted : s.posted = (id, p) :: rest) :
    ({ s with posted := rest, log := s.log ++ [sendImpl s.conState .user id p] } :
      Namespaces).Linked := by
  refine ⟨hl.offline, hl.online, fun hcon i hi => ⟨(hl.attended hcon i hi).1,
    fun hclient hnsp => ?_⟩⟩
  have hsend : sendImpl s.conState .user id p = .sent .user id p := if_pos hcon
  rcases (hl.attended hcon i hi).2 hclient hnsp with hsince | ⟨q, hq, hquestion⟩
  · exact Or.inl (hsince.append (by simp [hsend]))
  · have hmem : (i, q) ∈ s.posted := hq
    rw [hposted] at hmem
    rcases List.mem_cons.mp hmem with heq | hrest
    · obtain ⟨rfl, rfl⟩ := Prod.mk.inj heq
      exact Or.inl (Since.concat _ ⟨.user, q, hsend, hquestion⟩)
    · exact Or.inr ⟨q, hrest, hquestion⟩

/-- **One step keeps the invariant.** -/
theorem inv_step {s s' : Namespaces} {e : NamespaceEvent} (h : s.Inv ∧ s.Linked)
    (hstep : s.step e = some s') : s'.Inv ∧ s'.Linked := by
  obtain ⟨h, hl⟩ := h
  cases effect_of_step hstep with
  | call t id op hid hdoes hwatched hothers =>
      have hdoes := hdoes _ (h.sound id)
      exact ⟨h.call hid hdoes False.elim, hl.call hdoes False.elim (hwatched _)⟩
  | socket t nsp => exact ⟨h.getSocket t nsp, hl.getSocket h t nsp⟩
  | close t => exact inv_close h hl t
  | connect honline =>
      exact ⟨h.state .opening s.online, hl.state (by decide)⟩
  | onOpen honline hposted => exact inv_onOpen h hl honline hposted
  | onFail => exact inv_onClose h
  | onClose => exact inv_onClose h
  | receive p honline => exact inv_receive h hl honline p
  | run hposted => exact ⟨h.run hposted, hl.run hposted⟩

/-- **The invariant of a client**, over every run. -/
theorem inv_of_run {es : List NamespaceEvent} {s : Namespaces}
    (h : Run (fun s e s' => step s e = some s') init es s) : s.Inv ∧ s.Linked :=
  h.invariant (I := fun s => s.Inv ∧ s.Linked) inv_step ⟨inv_init, linked_init⟩

end Namespaces

end MahjongAI
