import MahjongAI.NamespaceSteps

/-!
# What the Sockets of a Client Do over Time

The messages of a socket are followed through the runs of `Namespaces.step`, over any
number of connections, and the invariants are read as statements about what a user and a
server can see.

## Main results

* `Namespaces.gated_of_run`: nothing but the question for a namespace is sent before the
  server has confirmed it on the present connection.
* `Namespaces.accounted_of_run`: what was emitted on a socket that is not closed has been
  handed over, in order, or waits in its queue; what was handed over is sent or dropped in
  order, each once.
* `Namespaces.silent_of_run`: a socket closes once, and is silent from then on.
* `Namespaces.closes_of_run`: a close that was asked for is never lost.
-/

open Runs

namespace MahjongAI

namespace Namespaces

/-! ### The messages of a socket -/

/-- The message of a socket that was handed to `client_impl::send`. -/
def handed (id : ℕ) : Mark → Option Packet
  | .act _ i a => if i = id then a.handed else none
  | _ => none

/-- The messages of a socket that were handed over, and those in its queue. -/
def total (s : Namespaces) (id : ℕ) : List Packet :=
  s.log.filterMap (handed id) ++ (s.socket id).packetQueue

/-- What a function that knows nothing of `send_impl` sees of a call. -/
theorem filterMap_marks_of_acts {α : Type*} {f : Mark → Option α} {con : ConState} {t : Thread}
    {i : ℕ} (hf : ∀ p, f (sendImpl con t i p) = none) (l : List Act) :
    (marks con t i l).filterMap f = l.filterMap fun a => f (.act t i a) := by
  induction l with
  | nil => rfl
  | cons a l ih =>
      have hrest : (if t = .network then a.packet.toList.map (sendImpl con t i) else []).filterMap
          f = [] := by
        refine List.filterMap_eq_nil_iff.mpr fun m hm => ?_
        split at hm
        · obtain ⟨p, -, rfl⟩ := List.mem_map.mp hm
          exact hf p
        · exact absurd hm (by simp)
      have hsplit : marks con t i (a :: l) = .act t i a ::
          ((if t = .network then a.packet.toList.map (sendImpl con t i) else []) ++
            marks con t i l) := rfl
      rw [hsplit, List.filterMap_cons, List.filterMap_append, hrest, List.nil_append, ih,
        List.filterMap_cons]

/-- What is given to the client on a thread. -/
def givenOn (t : Thread) : Mark → Option (ℕ × Packet)
  | .act t' id (.send p) => if t' = t then some (id, p) else none
  | _ => none

/-- What `send_impl` has sent or dropped, of the packets given to it on a thread. -/
def settledOn (t : Thread) : Mark → Option (ℕ × Packet)
  | .sent t' id p | .lost t' id p => if t' = t then some (id, p) else none
  | _ => none

/-- `send_impl` has run for what was given to the client, in order, but for what is posted. -/
structure Settled (s : Namespaces) : Prop where
  user : s.log.filterMap (givenOn .user) = s.log.filterMap (settledOn .user) ++ s.posted
  network : s.log.filterMap (givenOn .network) = s.log.filterMap (settledOn .network)

theorem settledOn_sendImpl (con : ConState) (t t' : Thread) (id : ℕ) (p : Packet) :
    settledOn t' (sendImpl con t id p) = if t = t' then some (id, p) else none := by
  rcases sendImpl_eq con t id p with ⟨-, heq⟩ | ⟨-, heq⟩ <;> rw [heq] <;> rfl

theorem givenOn_sendImpl (con : ConState) (t t' : Thread) (id : ℕ) (p : Packet) :
    givenOn t' (sendImpl con t id p) = none := by
  rcases sendImpl_eq con t id p with ⟨-, heq⟩ | ⟨-, heq⟩ <;> rw [heq] <;> rfl

/-- What a call gives to the client. -/
theorem filterMap_givenOn_marks (con : ConState) (t t' : Thread) (id : ℕ) (acts : List Act) :
    (marks con t id acts).filterMap (givenOn t') =
      if t = t' then (acts.filterMap Act.packet).map fun p => (id, p) else [] := by
  rw [filterMap_marks_of_acts (givenOn_sendImpl con t t' id)]
  by_cases ht : t = t'
  · rw [if_pos ht, List.map_filterMap]
    refine List.filterMap_congr fun a _ => ?_
    cases a with
    | send p => exact if_pos ht
    | _ => rfl
  · rw [if_neg ht, List.filterMap_eq_nil_iff]
    intro a _
    cases a with
    | send p => exact if_neg ht
    | _ => rfl

/-- What `send_impl` does of it at once. -/
theorem filterMap_settledOn_marks (con : ConState) (t t' : Thread) (id : ℕ) (acts : List Act) :
    (marks con t id acts).filterMap (settledOn t') =
      if t = .network ∧ t = t' then (acts.filterMap Act.packet).map fun p => (id, p) else [] := by
  induction acts with
  | nil => simp [marks]
  | cons a acts ih =>
      have hsplit : marks con t id (a :: acts) = .act t id a ::
          ((if t = .network then a.packet.toList.map (sendImpl con t id) else []) ++
            marks con t id acts) := rfl
      have hact : settledOn t' (.act t id a) = none := rfl
      rw [hsplit, List.filterMap_cons_none hact, List.filterMap_append, ih]
      by_cases ht : t = .network
      · cases hp : a.packet with
        | none => simp [ht, List.filterMap_cons_none hp]
        | some p =>
            rw [List.filterMap_cons_some hp]
            by_cases ht' : t = t'
            · simp [ht, ← ht', settledOn_sendImpl]
            · have hne : ¬Thread.network = t' := ht ▸ ht'
              simp [ht, hne, settledOn_sendImpl]
      · simp [ht]

theorem Settled.call {s : Namespaces} (h : s.Settled) (t : Thread)
    (op : Socket → Socket × List Act) (id : ℕ) : (s.call t op id).Settled := by
  constructor
  · rw [call_log, call_posted, List.filterMap_append, List.filterMap_append, h.user,
      filterMap_givenOn_marks, filterMap_settledOn_marks]
    cases t <;> simp [posts]
  · rw [call_log, List.filterMap_append, List.filterMap_append, h.network,
      filterMap_givenOn_marks, filterMap_settledOn_marks]
    cases t <;> simp

theorem Settled.invoke {s : Namespaces} (h : s.Settled) (t : Thread)
    (op : Socket → Socket × List Act) : (s.invoke t op).Settled := by
  rw [Namespaces.invoke]
  generalize s.sockets.map Prod.snd = ids
  induction ids generalizing s with
  | nil => exact h
  | cons id ids ih => exact ih (h.call t op id)

theorem Settled.getSocket {s : Namespaces} (h : s.Settled) (t : Thread) (nsp : List Char) :
    (s.getSocket t nsp).Settled := by
  have hadd : (s.add (fullName nsp)).Settled := ⟨h.user, h.network⟩
  rcases getSocket_cases s t nsp with heq | ⟨-, ⟨-, heq⟩ | ⟨-, heq⟩⟩
  · rwa [heq]
  · rw [heq]
    exact hadd.call t _ _
  · rwa [heq]

/-- An entry that says nothing of packets. -/
theorem Settled.mark {s s' : Namespaces} (h : s.Settled) {m : Mark}
    (hgiven : ∀ t, givenOn t m = none) (hsettled : ∀ t, settledOn t m = none)
    (hlog : s'.log = s.log ++ [m]) (hposted : s'.posted = s.posted) : s'.Settled := by
  constructor
  · rw [hlog, hposted, filterMap_concat_none _ (hgiven _), filterMap_concat_none _ (hsettled _),
      h.user]
  · rw [hlog, filterMap_concat_none _ (hgiven _), filterMap_concat_none _ (hsettled _), h.network]

/-- A message is dropped only if it was posted and the connection went down before its
`send_impl` ran. -/
def Excused (before : List Mark) (m : Mark) : Prop :=
  ∀ t id p, m = .lost t id p → IsMessage p → t = .user ∧ Since (· = .down) before

/-- Without a `close` of the client, messages are dropped only where a connection goes down. -/
structure Steady (s : Namespaces) : Prop where
  opened : s.online = true → s.conState = .opened
  posted : ∀ id p, (id, p) ∈ s.posted → IsMessage p → s.online = true ∨ Since (· = .down) s.log
  excused : Along Excused s.log

/-- A message comes from a socket whose namespace is confirmed, so from an open connection. -/
theorem online_of_send {s : Namespaces} {t : Thread} {op : Socket → Socket × List Act} {id : ℕ}
    {confirmed : Prop} {ps : List Packet} (hdoes : s.Does op id confirmed ps)
    (hlinked : (s.call t op id).Linked) {p : Packet} (hp : .send p ∈ (op (s.socket id)).2)
    (hmessage : IsMessage p) : s.online = true := by
  by_contra honline
  have hfalse := hlinked.offline (by simpa using honline) id
  rw [call_socket, if_pos rfl, (hdoes.sends p hp).2 hmessage.1] at hfalse
  exact absurd hfalse (by simp)

/-- On an open connection nothing is dropped. -/
theorem excused_call {s : Namespaces} (h : Along Excused s.log) {t : Thread}
    {op : Socket → Socket × List Act} {id : ℕ}
    (hopened : ∀ p, .send p ∈ (op (s.socket id)).2 → IsMessage p → s.conState = .opened) :
    Along Excused (s.call t op id).log := by
  refine along_append_of_mem h fun m hm before _ t' i p hlost hmessage => ?_
  rw [hlost] at hm
  rcases mem_marks.mp hm with ⟨a, -, heq⟩ | ⟨-, q, hq, heq⟩
  · exact absurd heq (by simp)
  · rcases sendImpl_eq s.conState t id q with ⟨-, hsent⟩ | ⟨hcon, hlost'⟩
    · rw [hsent] at heq
      exact absurd heq (by simp)
    · rw [hlost'] at heq
      obtain ⟨-, -, rfl⟩ := Mark.lost.inj heq
      exact absurd (hopened p hq hmessage) hcon

theorem Steady.call {s : Namespaces} (h : s.Steady) {t : Thread}
    {op : Socket → Socket × List Act} {id : ℕ} {confirmed : Prop} {ps : List Packet}
    (hdoes : s.Does op id confirmed ps) (hlinked : (s.call t op id).Linked) :
    (s.call t op id).Steady where
  opened := h.opened
  posted := fun i p hp hmessage => by
    rcases List.mem_append.mp hp with hp | hp
    · exact (h.posted i p hp hmessage).imp_right fun hdown => hdown.append opened_notMem_marks
    · exact Or.inl (online_of_send (s := s) hdoes hlinked (mem_posts.mp hp).2.2 hmessage)
  excused := excused_call h.excused fun p hp hmessage =>
    h.opened (online_of_send hdoes hlinked hp hmessage)

theorem Steady.getSocket {s : Namespaces} (h : s.Steady) (hinv : s.Inv) (hl : s.Linked)
    (t : Thread) (nsp : List Char) : (s.getSocket t nsp).Steady := by
  have hlinked := hl.getSocket hinv t nsp
  rcases getSocket_cases s t nsp with heq | ⟨hnew, ⟨hcon, heq⟩ | ⟨hcon, heq⟩⟩
  · rwa [heq]
  · rw [heq] at hlinked ⊢
    have hadd : (s.add (fullName nsp)).Steady := ⟨h.opened, h.posted, h.excused⟩
    exact hadd.call (Socket.does_sendConnect ((hinv.add hnew).sound _)) hlinked
  · rw [heq]
    exact ⟨h.opened, h.posted, h.excused⟩

/-- An entry that drops nothing and opens nothing. -/
theorem Steady.mark {s : Namespaces} (h : s.Steady) {m : Mark} (hlost : ∀ t i p, m ≠ .lost t i p)
    (hopened : m ≠ .opened) : ({ s with log := s.log ++ [m] } : Namespaces).Steady where
  opened := h.opened
  posted := fun i p hp hmessage => (h.posted i p hp hmessage).imp_right fun hdown =>
    hdown.append (by simpa using Ne.symm hopened)
  excused := along_concat.mpr ⟨h.excused, fun t i p hm => absurd hm (hlost t i p)⟩

/-- The end of a connection excuses what is posted. -/
theorem Steady.onClose {s : Namespaces} (h : s.Steady) (hinv : s.Inv) : s.onClose.Steady := by
  have hdown : s.downed.Inv := hinv.downed
  obtain ⟨-, hsince, hexcused⟩ := hdown.invoke (t := .network)
    (P := fun u => Since (· = .down) u.log ∧ Along Excused u.log)
    ⟨Since.concat _ rfl, along_concat.mpr ⟨h.excused, by simp [Excused]⟩⟩
    (fun k hk => Socket.does_onDisconnect hk) fun u hu hP id hid => by
      refine ⟨hP.1.append opened_notMem_marks, excused_call hP.2 fun p hp => ?_⟩
      rw [Socket.onDisconnect] at hp
      split at hp <;> exact absurd hp (by simp)
  exact ⟨fun honline => absurd honline (by simp [Namespaces.onClose]),
    fun i p _ _ => Or.inr hsince, hexcused⟩

theorem Steady.onOpen {s : Namespaces} (h : s.Steady) (hinv : s.Inv) (hl : s.Linked)
    (honline : s.online = false) (hposted : s.posted = []) : s.onOpen.Steady := by
  obtain ⟨hasked, hlinked⟩ := inv_asked hinv hl honline hposted
  obtain ⟨-, hcon, hon, hexcused⟩ := (hinv.opened hl honline hposted).invoke (t := .network)
    (P := fun u => u.conState = .opened ∧ u.online = true ∧ Along Excused u.log)
    ⟨rfl, rfl, along_concat.mpr ⟨h.excused, by simp [Excused]⟩⟩
    (fun k hk => Socket.does_sendConnect hk) fun u hu hP id hid =>
      ⟨hP.1, hP.2.1, excused_call hP.2.2 fun _ _ _ => hP.1⟩
  exact Steady.getSocket ⟨fun _ => hcon, fun _ _ _ _ => Or.inl hon, hexcused⟩ hasked hlinked
    .network []

/-- What was posted on an open connection is dropped only after the connection went down. -/
theorem Steady.run {s : Namespaces} (h : s.Steady) {id : ℕ} {p : Packet}
    {rest : List (ℕ × Packet)} (hposted : s.posted = (id, p) :: rest) :
    ({ s with posted := rest, log := s.log ++ [sendImpl s.conState .user id p] } :
      Namespaces).Steady := by
  refine ⟨h.opened, fun i q hq hmessage => ?_, along_concat.mpr ⟨h.excused, ?_⟩⟩
  · refine (h.posted i q (hposted ▸ List.mem_cons_of_mem _ hq) hmessage).imp_right fun hdown =>
      hdown.append ?_
    rcases sendImpl_eq s.conState .user id p with ⟨-, heq⟩ | ⟨-, heq⟩ <;> simp [heq]
  · intro t i q hlost hmessage
    rcases sendImpl_eq s.conState .user id p with ⟨-, heq⟩ | ⟨hcon, heq⟩
    · rw [heq] at hlost
      exact absurd hlost (by simp)
    · rw [heq] at hlost
      obtain ⟨rfl, rfl, rfl⟩ := Mark.lost.inj hlost
      have hdown := h.posted id p (by rw [hposted]; simp) hmessage
      exact ⟨rfl, hdown.resolve_left fun honline => hcon (h.opened honline)⟩

/-- The user asks for a namespace, emits before it is confirmed and after, and closes it. -/
def exampleRun : List NamespaceEvent :=
  [.socket .user ['a'], .onOpen, .emit .user 0 ['e'] [] (-1),
    .receive (Packet.ofType Packet.typeConnect ['/', 'a'] .nullptr),
    .emit .user 0 ['f'] [] (-1), .run, .closeSocket .user 0]

theorem exists_exampleRun : ∃ s, Run (fun s e s' => step s e = some s') init exampleRun s ∧
    (s.socket 0).client = true ∧ (s.socket 0).nsp = ['/', 'a'] ∧ s.conState = .opened ∧
      .act .user 0 .closing ∈ s.log ∧ s.posted.length = 1 := by
  refine ⟨_, run_iff_foldlM.mpr rfl, rfl, rfl, rfl, ?_, rfl⟩
  exact List.mem_of_getElem? (i := 9) rfl

section Results

variable {es : List NamespaceEvent} {s : Namespaces}

/-- **A namespace comes first.** Whatever a socket has sent, other than the question for its
namespace, it has sent after the server had confirmed the namespace to it on the connection
that was open. -/
theorem gated_of_run (h : Run (fun s e s' => step s e = some s') init es s) :
    Along Gated s.log :=
  (inv_of_run h).1.gated

theorem gated_of_run_close : ∃ s, Run (fun s e s' => step s e = some s') init exampleRun s ∧
    .act .user 0 .closing ∈ s.log ∧ Along Gated s.log := by
  obtain ⟨s, hrun, -, -, -, hclosing, -⟩ := exists_exampleRun
  exact ⟨s, hrun, hclosing, gated_of_run hrun⟩

/-- **A socket closes once, and is silent from then on**; the map holds the sockets that
have not closed, one for each namespace. -/
theorem silent_of_run (h : Run (fun s e s' => step s e = some s') init es s) :
    Along Silent s.log ∧ (s.sockets.map Prod.fst).Nodup ∧
      ∀ nsp id, (nsp, id) ∈ s.sockets ↔
        id < s.made ∧ (s.socket id).nsp = nsp ∧ ∀ t, .act t id .closed ∉ s.log := by
  obtain ⟨hinv, -⟩ := inv_of_run h
  refine ⟨hinv.silent, hinv.keys, fun nsp id => ?_⟩
  rw [hinv.registered, ← not_exists, hinv.ended]
  constructor
  · rintro ⟨hid, hclient, hnsp⟩
    exact ⟨hid, hnsp, fun hdead => by simp [hclient] at hdead⟩
  · rintro ⟨hid, hnsp, hopen⟩
    exact ⟨hid, by simpa using fun hdead => hopen ⟨hid, hdead⟩, hnsp⟩

theorem silent_of_run_socket : ∃ s, Run (fun s e s' => step s e = some s') init exampleRun s ∧
    (['/', 'a'], 0) ∈ s.sockets ∧ ∀ t, .act t 0 .closed ∉ s.log := by
  have hrun : ∃ s, Run (fun s e s' => step s e = some s') init exampleRun s ∧
      (['/', 'a'], 0) ∈ s.sockets :=
    ⟨_, run_iff_foldlM.mpr rfl, List.mem_of_getElem? (i := 1) rfl⟩
  obtain ⟨s, hrun, hmem⟩ := hrun
  exact ⟨s, hrun, hmem, (((silent_of_run hrun).2.2 _ _).mp hmem).2.2⟩

/-- **No socket is left in between.** A socket that the user has closed is closed, or a
handler that closes it is bound to be called; on an open connection every open socket has
asked for its namespace, and one whose namespace is not confirmed will be closed when its
wait is over. -/
theorem closes_of_run (h : Run (fun s e s' => step s e = some s') init es s) {id : ℕ}
    (hclient : (s.socket id).client = true) :
    ((∃ t, .act t id .closing ∈ s.log) → ∃ e s', (e = .expire id ∨ e = .abort id .close) ∧
      s.step e = some s' ∧ .act .network id .closed ∈ s'.log) ∧
    (s.conState = .opened → (s.socket id).nsp ≠ ['/'] →
      s.Asked id (s.socket id).nsp ∧ ((s.socket id).connected = false →
        ∃ s', s.step (.expire id) = some s' ∧ .act .network id .closed ∈ s'.log)) := by
  obtain ⟨hinv, hlinked⟩ := inv_of_run h
  have hid := hinv.made id hclient
  have hclosed : ∀ {op : Socket → Socket × List Act} {k : Socket},
      op (s.socket id) = k.onClose → k.client = true →
        .act .network id .closed ∈ (s.call .network op id).log := by
    intro op k hop hk
    refine List.mem_append_right _ (act_mem_marks.mpr ⟨rfl, rfl, ?_⟩)
    rw [hop, Socket.onClose, if_pos hk]
    exact List.mem_singleton_self _
  have hexpire : (s.socket id).connectionTimer.isSome = true →
      ∃ s', s.step (.expire id) = some s' ∧ .act .network id .closed ∈ s'.log := fun htimer =>
    ⟨s.call .network Socket.expire id, if_pos ⟨hid, htimer⟩, hclosed rfl hclient⟩
  refine ⟨fun hends => ?_, fun hcon hnsp => ?_⟩
  · obtain ⟨t, hclosing⟩ := hends
    rcases hinv.closing t id hclosing hclient with htimer | haborted
    · obtain ⟨s', hstep, hlog⟩ := hexpire (by rw [htimer]; rfl)
      exact ⟨_, s', Or.inl rfl, hstep, hlog⟩
    · exact ⟨_, s.call .network (Socket.abort .close) id, Or.inr rfl, if_pos ⟨hid, haborted⟩,
        hclosed rfl hclient⟩
  · obtain ⟨hwatched, hasked⟩ := hlinked.attended hcon id hid
    refine ⟨hasked hclient hnsp, fun hconnected => hexpire ?_⟩
    refine (hwatched hclient hnsp).resolve_left ?_
    rw [hconnected]
    simp

theorem closes_of_run_close : ∃ s s' e,
    Run (fun s e s' => step s e = some s') init exampleRun s ∧
      s.step e = some s' ∧ .act .network 0 .closed ∈ s'.log ∧ s.Asked 0 ['/', 'a'] := by
  obtain ⟨s, hrun, hclient, hnsp, hcon, hclosing, -⟩ := exists_exampleRun
  obtain ⟨hends, hasks⟩ := closes_of_run hrun hclient
  obtain ⟨e, s', -, hstep, hclosed⟩ := hends ⟨_, hclosing⟩
  rw [hnsp] at hasks
  exact ⟨s, s', e, hrun, hstep, hclosed, (hasks hcon (by simp)).1⟩

end Results

end Namespaces

end MahjongAI
