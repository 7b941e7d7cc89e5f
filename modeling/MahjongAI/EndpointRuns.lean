import MahjongAI.Endpoint

/-!
# What a Client Keeps to Itself and What It Passes On

The runs of a client on an open connection: what its sockets say reaches the wire, what comes
in reaches the listeners and the callbacks, and a decoder at the other end of the wire makes
the packets of it again.

The payloads of two threads mix on the wire, and so do those of packets with attachments. A
decoder keeps one packet that waits for its attachments, and what is fed in between has to be
complete at once (`Insertable`): so the other end has every packet as long as one thread alone
sends attachments.

## Main results

* `Endpoint.Inv.decoded`: the other end has the packets of each thread, in order.
* `Endpoint.exact_of_run`, `Endpoint.settles_of_run`.
-/

open Runs MahjongAI.Json

namespace MahjongAI

namespace PacketManager

variable [LexicalCast] [LawfulLexicalCast]

/-- The payloads of a stream are those of its packets. -/
theorem map_fst_stream {dtoa : Float → List Char} {ps : List Packet}
    (hps : ∀ p ∈ ps, Packet.Sendable p) {main : List (List Char × Option Packet)}
    (h : stream dtoa ps = some main) :
    main.map Prod.fst = ps.flatMap (Endpoint.payloads dtoa) := by
  induction ps generalizing main with
  | nil =>
      obtain rfl := Option.some.inj h
      rfl
  | cons p ps ih =>
      obtain ⟨hp, hrest⟩ := List.forall_mem_cons.mp hps
      obtain ⟨type, text, henc⟩ := Packet.encodes_of_sendable dtoa hp
      obtain ⟨rest, hstream, -⟩ := exists_stream dtoa hrest
      rw [stream, henc.encode, hstream] at h
      obtain rfl := Option.some.inj h
      rw [List.map_append, ih hrest hstream, (filterMap_marks _ (List.cons_ne_nil _ _)).2,
        List.flatMap_cons, Endpoint.payloads, henc.encode]
      rfl

/-- A stream without attachments can be fed in between other payloads. -/
theorem putPayload_of_plain {dtoa : Float → List Char} {ps : List Packet}
    (hps : ∀ p ∈ ps, Packet.Sendable p) (hplain : ∀ p ∈ ps, p.message.attachments = [])
    {main : List (List Char × Option Packet)} (h : stream dtoa ps = some main) :
    ∀ b ∈ main, ∀ m : PacketManager, m.putPayload b.1 = some (m, b.2) := by
  induction ps generalizing main with
  | nil =>
      obtain rfl := Option.some.inj h
      exact fun b hb => absurd hb List.not_mem_nil
  | cons p ps ih =>
      obtain ⟨hp, hrest⟩ := List.forall_mem_cons.mp hps
      obtain ⟨hnone, hplain⟩ := List.forall_mem_cons.mp hplain
      obtain ⟨type, text, henc⟩ := Packet.encodes_of_sendable dtoa hp
      obtain ⟨rest, hstream, -⟩ := exists_stream dtoa hrest
      rw [stream, henc.encode, hstream, hnone] at h
      obtain rfl := Option.some.inj h
      intro b hb m
      rcases List.mem_cons.mp hb with rfl | hb
      · exact (insertable_of_encodes henc hnone).putPayload m
      · exact ih hrest hplain hstream b hb m

end PacketManager

namespace Endpoint

section Results

variable {S C L : Type*} {c : Setup S L} {w w' v : Endpoint S C L}

section Ahead

/-! ### What is posted is sent -/

/-- The payloads of the user's calls, sent and posted, grow at their end, and `n` more are
sent. -/
def Ahead (n : ℕ) (w w' : Endpoint S C L) : Prop :=
  (w.sentOn (some .user)).length + n ≤ (w'.sentOn (some .user)).length ∧
    w.sentOn (some .user) ++ w.posted <+: w'.sentOn (some .user) ++ w'.posted

theorem Ahead.refl (w : Endpoint S C L) : Ahead 0 w w :=
  ⟨le_rfl, List.prefix_rfl⟩

theorem Ahead.trans {n n' : ℕ} (h : Ahead n w v) (h' : Ahead n' v w') : Ahead (n + n') w w' :=
  ⟨by have := h.1; have := h'.1; omega, h.2.trans h'.2⟩

/-- As many payloads as were posted have been sent. -/
theorem Ahead.isPrefix {n : ℕ} (h : Ahead n w w') (hn : w.posted.length ≤ n) :
    w.sentOn (some .user) ++ w.posted <+: w'.sentOn (some .user) := by
  refine List.prefix_of_prefix_length_le h.2 (List.prefix_append _ _) ?_
  have := h.1
  rw [List.length_append]
  omega

variable [DecidableEq S]

theorem ahead_act {t : Thread} {s : S} {r : Socket × List Act} (hwire : v.wire = w.wire)
    (hposted : v.posted = w.posted) (h : act c t s v r = some w') : Ahead 0 w w' := by
  rw [act_eq_some h]
  cases t <;> simp [Ahead, sentOn, give, part, hwire, hposted]

theorem ahead_emit {t : Thread} {e : Emission S C} (h : emit c t w e = some w') :
    Ahead 0 w w' := by
  rw [emit_eq_act rfl] at h
  exact ahead_act (v := w.saying e _ _) rfl rfl h

theorem ahead_emits {t : Thread} {es : List (Emission S C)}
    (h : es.foldlM (emit c t) w = some w') : Ahead 0 w w' := by
  induction es generalizing w with
  | nil => exact Option.some.inj h ▸ Ahead.refl w
  | cons e es ih =>
      rw [List.foldlM_cons] at h
      obtain ⟨v, hv, hrest⟩ := Option.bind_eq_some_iff.mp h
      exact (ahead_emit hv).trans (ih hrest)

theorem ahead_respond {call : Call S C L} {r : Response S C}
    (h : respond c w call r = some w') : Ahead 0 w w' := by
  obtain ⟨v, hv, hlast⟩ := Option.bind_eq_some_iff.mp h
  have hemits := ahead_emits hv
  cases call with
  | event d =>
      simp only at hlast
      split at hlast
      · exact hemits.trans (ahead_act (v := v.replying d.socket d.msgId _) rfl rfl hlast)
      · exact Option.some.inj hlast ▸ hemits
  | _ => exact Option.some.inj hlast ▸ hemits

variable [LexicalCast]

theorem ahead_take {payload : List Char} {call : Call S C L}
    (h : take c w payload = some (w', call)) : Ahead 0 w w' := by
  obtain ⟨m, out, -, htakes⟩ := takes_of_take h
  cases htakes with
  | confirmed hevent hack hact => exact ahead_act (v := w.taking payload m) rfl rfl hact
  | _ => exact Ahead.refl w

/-- A handler that was posted runs. -/
def Event.isRun : Event S C → Bool
  | .run => true
  | _ => false

/-- **Each handler that was posted** sends the next payload. -/
theorem ahead_step {e : Event S C} (h : Endpoint.step c w e = some w') :
    Ahead (if e.isRun then 1 else 0) w w' := by
  cases e with
  | emit e => exact ahead_emit h
  | run =>
      rw [Endpoint.step, Endpoint.run] at h
      split at h
      · exact absurd h (by simp)
      · rename_i payload rest hposted
        obtain rfl := Option.some.inj h
        simp [Ahead, Event.isRun, sentOn, part, hposted]
  | ping =>
      have hping : w.ping c = some w' := h
      obtain ⟨⟨p, more⟩, -, rfl⟩ := Option.map_eq_some_iff.mp hping
      simp [Ahead, Event.isRun, sentOn, part]
  | receive payload r =>
      obtain ⟨⟨v, call⟩, htake, hrespond⟩ := Option.bind_eq_some_iff.mp h
      exact (ahead_take htake).trans (ahead_respond hrespond)

theorem ahead_of_run {es : List (Event S C)} (h : Run (Steps c) w es w') :
    Ahead (es.countP Event.isRun) w w' := by
  induction h with
  | nil => exact Ahead.refl w
  | snoc _ hstep ih =>
      rw [List.countP_append, List.countP_singleton]
      exact ih.trans (ahead_step hstep.1)

end Ahead

/-! ### The other end -/

theorem sendable_of_sound {n : ℕ} (hn : n < 2 ^ 31) {x : Saying S C} (h : SoundSaying n x) :
    Packet.Sendable (x.packet c.nsp) := by
  cases x with
  | emit e packId =>
      obtain ⟨⟨hplain, hlength⟩, hid⟩ := h
      refine Packet.Sendable.event (c.isNamespace e.socket) ⟨trivial, hplain⟩ ?_ ?_
      · rcases hid with rfl | ⟨i, hi, rfl⟩
        · decide
        · rw [Acks.idAt_of_lt (by omega)]
          omega
      · rw [Message.attachments]
        exact hlength
  | ack s msgId ackMessage =>
      obtain ⟨⟨hplain, hlength⟩, hid⟩ := h
      refine Packet.Sendable.ack (c.isNamespace s) hplain hid ?_
      rw [Message.attachments]
      exact hlength

variable [DecidableEq S]

/-- A packet of a socket is one that the socket has said. -/
theorem Balanced.exists_saying (h : w.Balanced c) {s : S} {p : Packet}
    (hp : p ∈ w.packetsOf s ++ (w.socket s).packetQueue) :
    ∃ x ∈ w.said, x.packet c.nsp = p := by
  rw [h.handed s] at hp
  obtain ⟨x, hx, rfl⟩ := List.mem_map.mp hp
  exact ⟨x, (List.mem_filter.mp hx).1, rfl⟩

variable [LexicalCast]

/-- What is handed over can be encoded and decoded. -/
theorem Inv.sendable (h : w.Inv c) (hcount : w.count < 2 ^ 31) {t : Thread} {p : Packet}
    (hp : p ∈ w.packetsOn t) : Packet.Sendable p := by
  obtain ⟨⟨s, p'⟩, hmem, rfl⟩ := List.mem_map.mp hp
  have hhanded : (s, p') ∈ w.handed.map Prod.snd :=
    List.mem_map.mpr ⟨_, mem_part.mp hmem, rfl⟩
  obtain ⟨x, hx, rfl⟩ := h.balanced.exists_saying
    (List.mem_append_left _ (mem_part.mpr hhanded))
  exact sendable_of_sound hcount (h.attentive.said x hx)

/-- The packet of a ping, as the other end decodes it. -/
def pingPacket : Packet :=
  (Packet.ofFrame Packet.framePing).expected (Packet.ofFrame Packet.framePing).type

/-- A ping is a ping to any manager. -/
theorem putPayload_ping (dtoa : Float → List Char) :
    ∀ x ∈ payloads dtoa (Packet.ofFrame Packet.framePing), ∀ m : PacketManager,
      m.putPayload x = some (m, some pingPacket) := by
  obtain ⟨text, hencode, hinsertable⟩ :=
    PacketManager.insertable_of_engineFrame dtoa (Or.inl rfl : Packet.EngineFrame _)
  rw [payloads, hencode]
  intro x hx m
  obtain rfl := List.mem_singleton.mp hx
  exact hinsertable.putPayload m

/-- The payloads of the wire with what the other end makes of each: `main` for those of the
threads, and a ping for the others. -/
def outcomes (w : Endpoint S C L) (main : Thread → List (List Char × Option Packet)) :
    Option Thread → List (List Char × Option Packet)
  | some t => main t
  | none => (w.sentOn none).map (·, some pingPacket)

omit [DecidableEq S] [LexicalCast] in
/-- They are the payloads of the wire. -/
theorem map_fst_outcomes {main : Thread → List (List Char × Option Packet)}
    (hmain : ∀ t, (main t).map Prod.fst = w.sentOn (some t)) (k : Option Thread) :
    (w.outcomes main k).map Prod.fst = part k w.wire := by
  cases k with
  | some t => exact hmain t
  | none =>
      rw [outcomes, List.map_map]
      exact List.map_id _

/-- **The other end** of the wire has the packets of each thread, each once and in order, and
the pings, as long as the packets of one thread have no attachments and nothing is posted. -/
theorem Inv.decoded [LawfulLexicalCast] (h : w.Inv c) (hcount : w.count < 2 ^ 31)
    (hposted : w.posted = []) {t : Thread}
    (hplain : ∀ t' ≠ t, ∀ p ∈ w.packetsOn t', p.message.attachments = []) :
    ∃ ps : List (Option Thread × Packet),
      PacketManager.fresh.run (w.wire.map Prod.snd) =
        some (PacketManager.fresh, ps.map Prod.snd) ∧
      (∀ t', PacketManager.callbacks c.dtoa (w.packetsOn t') = some (part (some t') ps)) ∧
      ∀ p ∈ part none ps, p = pingPacket := by
  have hpsend : ∀ t', ∀ p ∈ w.packetsOn t', Packet.Sendable p :=
    fun t' p hp => h.sendable hcount hp
  choose main hstream hcallbacks using fun t' => PacketManager.exists_stream c.dtoa (hpsend t')
  have hsent : ∀ t', (main t').map Prod.fst = w.sentOn (some t') := fun t' => by
    rw [PacketManager.map_fst_stream (hpsend t') (hstream t'), ← h.balanced.sent t']
    cases t' <;> simp [postedOn, hposted]
  obtain ⟨marked, hwire, hparts⟩ := exists_marks w.wire (map_fst_outcomes hsent)
  have hfed := interleaves_part (some t) marked
  rw [hparts] at hfed
  have hinserted : ∀ b ∈ (marked.filter (·.1 ≠ some t)).map Prod.snd, ∀ m : PacketManager,
      m.putPayload b.1 = some (m, b.2) := by
    intro b hb
    obtain ⟨⟨k, b'⟩, hmem, rfl⟩ := List.mem_map.mp hb
    obtain ⟨hmem, hk⟩ := List.mem_filter.mp hmem
    have hpart : b' ∈ w.outcomes main k := hparts k ▸ mem_part.mpr hmem
    cases k with
    | some t' =>
        exact PacketManager.putPayload_of_plain (hpsend t')
          (hplain t' fun heq => by simp [heq] at hk) (hstream t') b' hpart
    | none =>
        obtain ⟨x, hx, rfl⟩ := List.mem_map.mp hpart
        exact putPayload_ping c.dtoa x (h.balanced.pings x hx)
  have hrun := PacketManager.run_interleaved hfed hinserted
    (PacketManager.Expecting.idle (hpsend t) (hstream t))
  have hpayloads : (marked.map Prod.snd).map Prod.fst = w.wire.map Prod.snd := by
    rw [← hwire, List.map_map, List.map_map]
    rfl
  rw [hpayloads] at hrun
  refine ⟨marked.filterMap fun x => x.2.2.map (x.1, ·), ?_, fun t' => ?_, fun p hp => ?_⟩
  · rw [hrun, List.filterMap_map, List.map_filterMap]
    refine congrArg (fun ps => some (PacketManager.fresh, ps)) (congrFun (congrArg _ ?_) _)
    funext x
    cases hx : x.2.2 <;> simp [hx]
  · rw [hcallbacks, part_filterMap, hparts, outcomes]
  · rw [part_filterMap, hparts] at hp
    obtain ⟨b, hb, hout⟩ := List.mem_filterMap.mp hp
    obtain ⟨x, -, rfl⟩ := List.mem_map.mp hb
    exact (Option.some.inj hout).symm

/-! ### Nothing blocks a call -/

/-- A call of a socket succeeds where all packets can be encoded. -/
theorem Balanced.exists_act [LawfulLexicalCast] (h : w.Balanced c) {t : Thread} {s : S}
    {new : List (Saying S C)} (hsaid : v.said = w.said ++ new)
    (hsendable : ∀ x ∈ v.said, Packet.Sendable (x.packet c.nsp)) {r : Socket × List Act}
    (hr : Hands (w.socket s) (new.map (Saying.packet c.nsp)) r) :
    ∃ w', Endpoint.act c t s v r = some w' := by
  refine ⟨_, foldlM_send_eq_some_iff.mpr ⟨fun p hp => ?_, rfl⟩⟩
  have hmem : p ∈ (w.socket s).packetQueue ++ new.map (Saying.packet c.nsp) :=
    hr.packets ▸ List.mem_append_left _ hp
  have hall : ∃ x ∈ v.said, x.packet c.nsp = p := by
    rw [hsaid]
    rcases List.mem_append.mp hmem with hqueue | hnew
    · obtain ⟨x, hx, hxp⟩ := h.exists_saying (List.mem_append_right (w.packetsOf s) hqueue)
      exact ⟨x, List.mem_append_left _ hx, hxp⟩
    · obtain ⟨x, hx, hxp⟩ := List.mem_map.mp hnew
      exact ⟨x, List.mem_append_right _ hx, hxp⟩
  obtain ⟨x, hx, rfl⟩ := hall
  obtain ⟨type, text, henc⟩ := Packet.encodes_of_sendable c.dtoa (hsendable x hx)
  rw [henc.encode]
  rfl

/-- **An emit** succeeds while fewer than `2 ^ 31` callbacks are passed. -/
theorem Inv.exists_emit [LawfulLexicalCast] (h : w.Inv c) (t : Thread) {e : Emission S C}
    (hsound : Sound e.msglist) (hcount : w.count + e.ack.toList.length < 2 ^ 31) :
    ∃ w', Endpoint.emit c t w e = some w' ∧ w'.count = w.count + e.ack.toList.length ∧
      ∃ p, w'.history = w.history ++ [.sent e.socket e.ack p] := by
  generalize hout : Acks.emit (c.nsp e.socket) w.acks e.socket e.name e.msglist e.ack = out
  obtain ⟨acks, p⟩ := out
  have hattentive := h.attentive.saying hsound hout
  have hsaying : (w.saying e acks p).count = w.count + e.ack.toList.length := by
    rw [count, saying, List.filterMap_append, List.length_append]
    refine congrArg (w.count + ·) ?_
    cases hack : e.ack <;> simp [Acks.Entry.filed]
  obtain ⟨w', hact⟩ := h.balanced.exists_act (v := w.saying e acks p) (t := t) rfl
    (fun x hx => sendable_of_sound (hsaying ▸ hcount) (hattentive.said x hx))
    (h.balanced.hands_emit hout)
  refine ⟨w', (emit_eq_act hout).trans hact, ?_, p, ?_⟩
  · rw [act_eq_some hact]
    exact hsaying
  · rw [act_eq_some hact]
    rfl

/-- The callbacks of emits. -/
def acksOf (es : List (Emission S C)) : List C :=
  es.filterMap Emission.ack

theorem Inv.exists_emits [LawfulLexicalCast] (h : w.Inv c) (t : Thread)
    {es : List (Emission S C)} (hsound : ∀ e ∈ es, Sound e.msglist)
    (hcount : w.count + (acksOf es).length < 2 ^ 31) :
    ∃ w', es.foldlM (Endpoint.emit c t) w = some w' ∧
      w'.count = w.count + (acksOf es).length ∧ ∃ more, w'.history = w.history ++ more := by
  induction es generalizing w with
  | nil => exact ⟨w, rfl, rfl, [], (List.append_nil w.history).symm⟩
  | cons e es ih =>
      obtain ⟨he, hes⟩ := List.forall_mem_cons.mp hsound
      have hlength : (acksOf (e :: es)).length = e.ack.toList.length + (acksOf es).length := by
        rw [acksOf, acksOf, List.filterMap_cons]
        cases e.ack <;> simp [Nat.add_comm]
      rw [hlength] at hcount ⊢
      obtain ⟨v, hv, hvcount, p, hvhistory⟩ := h.exists_emit t he (by omega)
      obtain ⟨w', hw', hcount', more, hhistory⟩ := ih (h.emit he hv) hes (by omega)
      refine ⟨w', ?_, by omega, .sent e.socket e.ack p :: more, ?_⟩
      · rw [List.foldlM_cons, hv]
        exact hw'
      · rw [hhistory, hvhistory, List.append_assoc]
        rfl

/-- **A call is answered**: the emits and the ack of the response are said. -/
theorem Inv.exists_respond [LawfulLexicalCast] (h : w.Inv c) (call : Call S C L)
    {r : Response S C} (hsound : Response.Sound r) (hid : ∀ d, call = .event d → d.msgId < 2 ^ 31)
    (hcount : w.count + (acksOf r.emits).length < 2 ^ 31) :
    ∃ w', Endpoint.respond c w call r = some w' ∧ ∃ more, w'.history = w.history ++ more := by
  generalize hr : (if call.isUser then r else ⟨[], []⟩ : Response S C) = r'
  have hsound' : Response.Sound r' := by
    rw [← hr]
    split
    · exact hsound
    · exact ⟨by simp, sound_nil⟩
  have hcount' : w.count + (acksOf r'.emits).length < 2 ^ 31 := by
    refine lt_of_le_of_lt (Nat.add_le_add_left ?_ _) hcount
    rw [← hr]
    split
    · exact le_rfl
    · exact Nat.zero_le _
  obtain ⟨v, hv, hvcount, more, hhistory⟩ := h.exists_emits .network hsound'.1 hcount'
  have hinv := h.emits hsound'.1 hv
  rw [Endpoint.respond, hr]
  simp only [hv, Option.bind_some]
  cases call with
  | event d =>
      simp only
      split
      · rename_i hmsgId
        have hattentive := hinv.attentive.replying (s := d.socket) hsound'.2 ⟨hmsgId, hid d rfl⟩
        obtain ⟨w', hact⟩ := hinv.balanced.exists_act
          (v := v.replying d.socket d.msgId r'.answer) (t := .network) rfl
          (fun x hx => sendable_of_sound (hvcount ▸ hcount') (hattentive.said x hx))
          (hinv.balanced.hands_ack d.socket d.msgId r'.answer)
        refine ⟨w', hact, more, ?_⟩
        rw [act_eq_some hact]
        exact hhistory
      · exact ⟨v, rfl, more, hhistory⟩
  | _ => exact ⟨v, rfl, more, hhistory⟩

/-- **An ack that comes in** calls the callback of its emit, with its messages. -/
theorem Inv.exists_called [LawfulLexicalCast] (h : w.Inv c) {s : S} {l : C} {p : Packet}
    (hp : .sent s (some l) p ∈ w.history) (hl : l ∉ w.history.filterMap Acks.Entry.called)
    {payload : List Char} {m : PacketManager} {q : Packet} {args : List Message}
    (hput : w.manager.putPayload payload = some (m, some q))
    (hack : handling c q = some (s, .ack p.packId args)) {r : Response S C}
    (hsound : Response.Sound r) (hcount : w.count + (acksOf r.emits).length < 2 ^ 31) :
    ∃ w' q' more, Steps c w (.receive payload r) w' ∧ q'.1 = q ∧
      w'.history = w.history ++ .received s q' (some (l, args)) :: more := by
  have hid : q.HasIntId := hasIntId_of_reachable h.attentive.reachable hput
  rw [handling] at hack
  split at hack
  · rename_i hframe
    obtain ⟨s', hs', hack⟩ := Option.bind_eq_some_iff.mp hack
    obtain ⟨handled, hhandled, heq⟩ := Option.map_eq_some_iff.mp hack
    obtain ⟨rfl, rfl⟩ := Prod.mk.inj heq
    have hsame := (Acks.onMessagePacket_eq_ack hhandled).1
    have hcall := (h.attentive.waiting (by omega)).calls hp hl
    let v : Endpoint S C L :=
      { w.taking payload m with
        acks := w.acks.setAck s' (BitVec.ofInt 32 p.packId) none
        history := w.history ++ [.received s' ⟨q, hid⟩ (some (l, args))] }
    have htake : Endpoint.take c w payload = some (v, .ack l args) := by
      rw [Endpoint.take, hput, Option.bind_some]
      simp only [onDecode, if_pos hframe, hs', Endpoint.onMessagePacket, hhandled, dif_pos hid,
        hcall]
      rfl
    have hv : v.Inv c := ⟨h.balanced.take htake, h.attentive.take htake⟩
    have hvcount : v.count = w.count :=
      congrArg List.length (filterMap_concat_none w.history rfl)
    obtain ⟨w', hrespond, more, hhistory⟩ := hv.exists_respond (.ack l args) hsound
      (fun d hd => absurd hd (by simp)) (by rw [hvcount]; exact hcount)
    refine ⟨w', ⟨q, hid⟩, more, ⟨?_, hsound⟩, rfl, ?_⟩
    · rw [Endpoint.step, htake]
      exact hrespond
    · rw [hhistory]
      simp [v]
  · exact absurd hack (by simp)

/-! ### What holds of every run -/

/-- **Nothing is lost, doubled or changed** on the way through the client. -/
structure Exact (c : Setup S L) (w : Endpoint S C L) : Prop where
  /-- The emits and acks of a socket are handed over in order, but for those in its queue. -/
  handed : ∀ s, w.packetsOf s ++ (w.socket s).packetQueue =
    (w.said.filter (·.socket = s)).map (Saying.packet c.nsp)
  /-- The queue is empty once the namespace is confirmed. -/
  confirmed : ∀ s, (w.socket s).connected = true → (w.socket s).packetQueue = []
  /-- The payloads of the packets of each thread are sent in order, but for those that are
  posted. -/
  sent : ∀ t, w.sentOn (some t) ++ w.postedOn t = (w.packetsOn t).flatMap (payloads c.dtoa)
  /-- The listeners hear the events among the packets that came in, in order, and the sockets
  take the acks among them. -/
  told : ∃ ps, PacketManager.fresh.run w.received = some (w.manager, ps) ∧
    w.heard = ps.filterMap (deliveryOf c) ∧ w.history.filterMap arrived = ps.filterMap (replyOf c)
  /-- The history has the emits with their packets. -/
  sents : w.history.filterMap Endpoint.sent = w.said.filterMap (entryOf c)
  /-- A callback is called with the messages of its ack. -/
  replied : ∀ s q l args, .received s q (some (l, args)) ∈ w.history →
    MahjongAI.onMessagePacket (c.nsp s) q.1 = some (.ack q.1.packId args)
  /-- Callbacks and acks match. -/
  matched : (w.history.filterMap Acks.Entry.filed).Nodup → w.count < 2 ^ 31 →
    Acks.Matched c.dtoa w.history
  /-- The other end decodes the packets of each thread, in order, and the pings. -/
  decoded : w.count < 2 ^ 31 → w.posted = [] → ∀ t,
    (∀ t' ≠ t, ∀ p ∈ w.packetsOn t', p.message.attachments = []) →
    ∃ ps : List (Option Thread × Packet),
      PacketManager.fresh.run (w.wire.map Prod.snd) =
        some (PacketManager.fresh, ps.map Prod.snd) ∧
      (∀ t', PacketManager.callbacks c.dtoa (w.packetsOn t') = some (part (some t') ps)) ∧
      ∀ p ∈ part none ps, p = pingPacket

theorem Inv.exact [LawfulLexicalCast] (h : w.Inv c) : w.Exact c where
  handed := h.balanced.handed
  confirmed := h.balanced.queue
  sent := h.balanced.sent
  told := h.attentive.told
  sents := h.attentive.sents
  replied := h.attentive.replied
  matched := fun hnodup hcount => h.attentive.acks.matched hnodup hcount c.dtoa
  decoded := fun hcount hposted _ hplain => h.decoded hcount hposted hplain

/-- **Exactly once, in order**, in both directions, in every run. -/
theorem exact_of_run [LawfulLexicalCast] {es : List (Event S C)}
    (h : Run (Steps c) (init c) es w) : w.Exact c :=
  (inv_of_run h).exact

/-- **No call is left open.** A handler that was posted can always run; once as many have run
as were waiting, whatever happened in between, all that the user's calls had handed over is
sent. An ack that comes in with the id of a callback that has not been called calls it with its
messages, whatever the callback does in turn. -/
theorem settles_of_run [LawfulLexicalCast] {es : List (Event S C)}
    (h : Run (Steps c) (init c) es w) :
    (w.posted ≠ [] → ∃ w', Steps c w .run w') ∧
    (∀ es' w', Run (Steps c) w es' w' → w.posted.length ≤ es'.countP Event.isRun →
      (w.packetsOn .user).flatMap (payloads c.dtoa) <+: w'.sentOn (some .user)) ∧
    ∀ s l p, .sent s (some l) p ∈ w.history → l ∉ w.history.filterMap Acks.Entry.called →
      ∀ payload m q args (r : Response S C),
        w.manager.putPayload payload = some (m, some q) →
        handling c q = some (s, .ack p.packId args) → Response.Sound r →
        w.count + (acksOf r.emits).length < 2 ^ 31 →
        ∃ w' q' more, Steps c w (.receive payload r) w' ∧ q'.1 = q ∧
          w'.history = w.history ++ .received s q' (some (l, args)) :: more := by
  have hinv := inv_of_run h
  refine ⟨fun hposted => ?_, fun es' w' hrun hcount => ?_, ?_⟩
  · obtain ⟨payload, rest, heq⟩ := List.exists_cons_of_ne_nil hposted
    exact ⟨_, by rw [step, run, heq], trivial⟩
  · rw [← hinv.balanced.sent .user]
    exact (ahead_of_run hrun).isPrefix hcount
  · intro s l p hp hl payload m q args r hput hack hsound hcount
    exact hinv.exists_called hp hl hput hack hsound hcount

end Results

/-! ### A run -/

section Example

open Decimal

/-- The root socket, with a listener for everything. -/
def exampleSetup : Setup Unit Unit where
  dtoa := fun _ => []
  nsp := fun _ => ['/']
  sockets := fun nsp => if nsp = ['/'] then some () else none
  eventBinding := fun _ _ => some ()
  isNamespace := fun _ => isNamespace_root

/-- An emit waits for the namespace, the next one is posted, and the answer of a listener
overtakes it. -/
def exampleEvents : List (Event Unit Unit) :=
  [.emit ⟨(), ['a'], [], some ()⟩, .receive ['4', '0'] ⟨[], []⟩, .emit ⟨(), ['b'], [], none⟩,
    .receive ['4', '2', '5', '[', '"', 'x', '"', ']'] ⟨[⟨(), ['c'], [], none⟩], [.int 1]⟩]

/-- What the client sends in it, with the payload that is posted at the end. -/
def exampleWire : List (Option Thread × List Char) :=
  [(some .network, ['4', '2', '1', '[', '"', 'a', '"', ']']),
    (some .network, ['4', '2', '[', '"', 'c', '"', ']']),
    (some .network, ['4', '3', '5', '[', '1', ']']),
    (some .user, ['4', '2', '[', '"', 'b', '"', ']'])]

theorem allowed_exampleEvents : ∀ e ∈ exampleEvents, Event.Allowed e := by
  have hone : Sound [.int 1] := ⟨by simp [Message.PlainElements, Message.Plain], by decide⟩
  simp only [exampleEvents, List.forall_mem_cons]
  exact ⟨sound_nil, ⟨by simp, sound_nil⟩, sound_nil, ⟨by simpa using sound_nil, hone⟩,
    fun e he => absurd he List.not_mem_nil⟩

/-- All four packets are sent, the one of the user last, and the other end has it. -/
theorem exact_of_run_example : ∃ w : Endpoint Unit Unit Unit, w.wire = exampleWire ∧
    (w.packetsOn .user).flatMap (payloads exampleSetup.dtoa) =
      [['4', '2', '[', '"', 'b', '"', ']']] ∧
    ∃ ps : List (Option Thread × Packet),
      PacketManager.callbacks exampleSetup.dtoa (w.packetsOn .user) =
        some (part (some .user) ps) := by
  have hsteps : ((exampleEvents ++ [Event.run]).foldlM (step exampleSetup)
      (init exampleSetup)).any (fun w : Endpoint Unit Unit Unit =>
        w.posted = [] && w.wire = exampleWire && w.count = 1 &&
          (w.packetsOn .user).all fun p => p.message.attachments = []) = true := by
    decide +kernel
  obtain ⟨w, hw, hcheck⟩ := (Option.any_eq_true _ _).mp hsteps
  simp only [Bool.and_eq_true, decide_eq_true_eq, List.all_eq_true] at hcheck
  obtain ⟨⟨⟨hposted, hwire⟩, hcount⟩, hplain⟩ := hcheck
  have hrun := (run_iff_foldlM.mpr hw).guard (P := Event.Allowed) fun e he =>
    (List.mem_append.mp he).elim (allowed_exampleEvents e) fun he =>
      List.mem_singleton.mp he ▸ trivial
  have hexact := exact_of_run (c := exampleSetup) hrun
  obtain ⟨ps, -, hparts, -⟩ := hexact.decoded (by rw [hcount]; decide) hposted .network
    fun t ht p hp => by
      cases t with
      | user => exact hplain p hp
      | network => exact absurd rfl ht
  refine ⟨w, hwire, ?_, ps, hparts .user⟩
  rw [← hexact.sent .user, sentOn, hwire, postedOn, hposted]
  rfl

/-- The ack with the id of the first emit. -/
def isFirstAck : Option (Unit × Handling) → Bool
  | some (_, .ack 1 []) => true
  | _ => false

theorem eq_of_isFirstAck {x : Option (Unit × Handling)} (h : isFirstAck x = true) :
    x = some ((), .ack 1 []) := by
  rw [isFirstAck.eq_def] at h
  split at h
  · rfl
  · exact absurd h (by simp)

def isFirstEmit : Acks.Entry Unit Unit → Bool
  | .sent _ (some _) p => p.packId = 1
  | _ => false

/-- In the run so far a payload is posted, and the first callback waits for its ack. -/
theorem settles_of_run_example : ∃ w w' w'' : Endpoint Unit Unit Unit,
    w.posted ≠ [] ∧ Steps exampleSetup w .run w' ∧
      Steps exampleSetup w (.receive ['4', '3', '1', '[', ']'] ⟨[], []⟩) w'' := by
  have hsteps : (exampleEvents.foldlM (step exampleSetup) (init exampleSetup)).any
      (fun w : Endpoint Unit Unit Unit =>
        w.posted ≠ [] && w.count = 1 && w.history.filterMap Acks.Entry.called = [] &&
          w.history.any isFirstEmit &&
          (w.manager.putPayload ['4', '3', '1', '[', ']']).any fun x =>
            x.2.any fun q => isFirstAck (handling exampleSetup q)) = true := by
    decide +kernel
  obtain ⟨w, hw, hcheck⟩ := (Option.any_eq_true _ _).mp hsteps
  simp only [Bool.and_eq_true, decide_eq_true_eq] at hcheck
  obtain ⟨⟨⟨⟨hposted, hcount⟩, hcalled⟩, hemit⟩, hack⟩ := hcheck
  have hrun := (run_iff_foldlM.mpr hw).guard allowed_exampleEvents
  obtain ⟨x, hx, hfirst⟩ := List.any_eq_true.mp hemit
  obtain ⟨⟨m, out⟩, hput, hout⟩ := (Option.any_eq_true _ _).mp hack
  obtain ⟨q, rfl, hq⟩ := (Option.any_eq_true _ _).mp hout
  cases x with
  | received s q call => exact absurd hfirst (by simp [isFirstEmit])
  | sent s ack p =>
      cases ack with
      | none => exact absurd hfirst (by simp [isFirstEmit])
      | some l =>
          have hid : p.packId = 1 := of_decide_eq_true hfirst
          obtain ⟨hnext, -, hcalls⟩ := settles_of_run (c := exampleSetup) hrun
          obtain ⟨w', hw'⟩ := hnext hposted
          obtain ⟨w'', q', more, hw'', -⟩ := hcalls () () p hx (by simp [hcalled]) _ m q []
            ⟨[], []⟩ hput (by rw [hid]; exact eq_of_isFirstAck hq) ⟨by simp, sound_nil⟩
            (by rw [hcount]; decide)
          exact ⟨w, w', w'', hposted, hw', hw''⟩

end Example

end Endpoint

end MahjongAI
