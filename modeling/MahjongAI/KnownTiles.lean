import MahjongAI.Conservation

/-!
# The Tiles That Are Still to Come

`Throw` weighs its candidates by `remainTiles`, four of each kind less the analysed hand
and the discards. `Table` follows the whole table by the rules: beside the bot's seat, the
tiles that were thrown or exposed by anyone, each physical tile once, and the tiles of the
bot's own concealed kongs. Together they are the tiles whose place the bot knows.

## Main results

* `discards_step`: the discards count the tiles seen, step by step, as long as nothing
  happens that the handlers forget (`KongCounted`).
* `known_of_run`: in such a run every `Throw` computes `remainTiles` as four minus the
  known copies, field by field.
* `not_known`: a concealed kong is forgotten; its four tiles count as still to come.
-/

open Runs

namespace MahjongAI

/-- The tiles of an own concealed kong, which only the bot itself knows. -/
def Claim.hidden : Claim → List Kind
  | .anGon x => List.replicate 4 x
  | _ => []

/-- The tile that somebody must have thrown for the claim. -/
def Claim.claimed : Claim → Option Kind
  | .eat _ x | .pon x | .gon x => some x
  | _ => none

/-- The table as the rules see it from the bot's seat. -/
structure Table where
  seat : Seat
  seen : Multiset Kind
  anKong : Multiset Kind
  lastThrow : Option Kind

namespace Table

/-- The tiles whose place the bot knows. -/
def known (t : Table) : Multiset Kind :=
  t.seat.hand + t.seen + t.anKong

/-- What an event shows, the seat aside: a throw is seen and may be claimed, a claim needs
the last thrown tile and shows what it takes, a concealed kong of the bot is known to it
alone and one of somebody else is not seen at all. A question about an own draw is only
asked after a draw. -/
def record [Tokenizer] (id : ℤ) (t : Table) : ServerEvent → Option Table
  | .dealTile _ => some { t with seen := 0, anKong := 0, lastThrow := none }
  | .broadcastThrow _ tile =>
      (tileKind tile).map fun x => { t with seen := x ::ₘ t.seen, lastThrow := some x }
  | .command _ command _ =>
      match Bot.isOwnCommand command, t.seat.turn with
      | false, _ => some t
      | true, .drawn _ => some t
      | true, _ => none
  | .success command tile =>
      (Claim.read command tile).bind fun c =>
        if c.claimed = none ∨ c.claimed = t.lastThrow then
          some { t with seen := t.seen + c.shown, anKong := t.anKong + c.hidden }
        else none
  | .broadcastCommand i command tile =>
      if i = id ∨ command = CommandType.anGon.code then some t
      else
        (Claim.read command tile).bind fun c =>
          if c.claimed = none ∨ c.claimed = t.lastThrow then
            some { t with seen := t.seen + c.shown }
          else none
  | _ => some t

/-- The table after an event, if the event follows the rules and leaves every kind its four
copies. -/
def next [Tokenizer] (id : ℤ) (t : Table) (out : List Emit) (e : ServerEvent) : Option Table :=
  match t.record id e, t.seat.next id out e with
  | some t', some seat =>
      if ∀ x, ({ t' with seat := seat } : Table).known.count x ≤ 4 then
        some { t' with seat := seat }
      else none
  | _, _ => none

end Table

/-- The bot at the table. -/
structure TableGame where
  bot : Bot
  table : Table

namespace TableGame

/-- Before the first deal. -/
def init (id : ℤ) : TableGame :=
  ⟨Bot.init id, ⟨⟨0, 0, .idle⟩, 0, 0, none⟩⟩

/-- One event: the handler runs, and the rules allow the event. -/
def step [Tokenizer] (g : TableGame) (e : ServerEvent) : Option TableGame :=
  match g.bot.handle e with
  | none => none
  | some (bot, out) => (g.table.next g.bot.player.id out e).map fun table => ⟨bot, table⟩

/-- The bot at its seat. -/
def game (g : TableGame) : Game :=
  ⟨g.bot, g.table.seat⟩

/-- The rules allow the event, whatever its handler answers. -/
def Admits [Tokenizer] (g : TableGame) (e : ServerEvent) : Prop :=
  ∃ out, (g.table.next g.bot.player.id out e).isSome = true

end TableGame

/-- The argument with which the handler of an event calls `Throw`, if it does: the `throw`
handler always, the `command` handler when it is asked about a kong that does not pay. -/
def throwCall (b : Bot) : ServerEvent → Option MJCard
  | .throw => some b.throwArg
  | .command tiles command _ =>
      if Bot.isOwnCommand command ∧ Bot.gonTileExists tiles command ∧
          ¬Bot.hasBit command .zimo then
        match b.player.gonOrNot b.drawTile true with
        | some (false, _) => some b.drawTile
        | _ => none
      else none
  | _ => none

/-- Every call of `Throw` knows how many tiles of each kind are still to come. -/
def KnownExact [Tokenizer] (g : TableGame) : Prop :=
  ∀ e card, g.Admits e → throwCall g.bot e = some card →
    (∀ x : Kind, (g.bot.player.remainTiles card).get x = 4 - (g.table.known.count x : ℤ)) ∧
      (g.bot.player.remainTiles card).get 34 = 0 ∧ (g.bot.player.remainTiles card).get 35 = 0

/-- The tiles of an own kong that only the bot sees. -/
def hiddenTiles [Tokenizer] : ServerEvent → List Kind
  | .success command tile => ((Claim.read command tile).map Claim.hidden).getD []
  | _ => []

/-- The event is no concealed kong, and a melded triplet's kong declared on a draw uses the
drawn tile. -/
def KongCounted [Tokenizer] (s : Seat) (e : ServerEvent) : Prop :=
  KongOnDrawn s e ∧ hiddenTiles e = []

instance [Tokenizer] (s : Seat) (e : ServerEvent) : Decidable (KongCounted s e) :=
  inferInstanceAs (Decidable (_ ∧ _))

/-! ### The discards -/

/-- **What the `broadcastCommand` handler does** with the claim of somebody else. -/
theorem broadcastCommand_spec [Tokenizer] {b b' : Bot} {id command : ℤ} {tile : List Char}
    {c : Claim}
    (hid : id ≠ b.player.id) (hcommand : command ≠ CommandType.anGon.code)
    (hc : Claim.read command tile = some c)
    (h : b.broadcastCommand id command tile = some b') :
    b'.player.discards = b.player.discards.addCards (c.shown.map cardOf) := by
  rw [Claim.read] at hc
  rw [Bot.broadcastCommand] at h
  rw [if_neg hid] at h
  by_cases heat : command = CommandType.eat.code
  · rw [if_pos heat] at hc h
    obtain ⟨⟨S, x⟩, hS, rfl⟩ := Option.map_eq_some_iff.mp hc
    obtain ⟨first, center, rest, htokens, hothers⟩ := runOthers_of_eatTiles hS
    simp only [htokens, hothers] at h
    obtain rfl := Option.some.inj h
    rfl
  rw [if_neg heat] at hc h
  by_cases hpon : command = CommandType.pon.code
  · rw [if_pos hpon] at hc h
    obtain ⟨x, hx, rfl⟩ := Option.map_eq_some_iff.mp hc
    simp only [replicate_of_tileKind hx] at h
    obtain rfl := Option.some.inj h
    rfl
  rw [if_neg hpon] at hc h
  by_cases hgon : command = CommandType.gon.code
  · rw [if_pos hgon] at hc h
    obtain ⟨x, hx, rfl⟩ := Option.map_eq_some_iff.mp hc
    simp only [replicate_of_tileKind hx] at h
    obtain rfl := Option.some.inj h
    rfl
  rw [if_neg hgon] at hc h
  by_cases hponGon : command = CommandType.ponGon.code
  · rw [if_pos hponGon] at hc h
    obtain ⟨x, hx, rfl⟩ := Option.map_eq_some_iff.mp hc
    simp only [replicate_of_tileKind hx] at h
    obtain rfl := Option.some.inj h
    rfl
  rw [if_neg hponGon, if_neg hcommand] at hc
  rw [if_neg hponGon] at h
  obtain rfl := Option.some.inj hc
  obtain rfl := Option.some.inj h
  rfl

/-- An own or foreign claim or kong that does not read anything changes nothing. -/
theorem broadcastCommand_same [Tokenizer] {b b' : Bot} {id command : ℤ} {tile : List Char}
    (hsame : id = b.player.id ∨ command = CommandType.anGon.code)
    (h : b.broadcastCommand id command tile = some b') : b' = b := by
  rw [Bot.broadcastCommand] at h
  by_cases hid : id = b.player.id
  · rw [if_pos hid] at h
    exact (Option.some.inj h).symm
  · rcases hsame with hid' | rfl
    · exact absurd hid' hid
    · rw [if_neg hid] at h
      exact (Option.some.inj h).symm

namespace TableGame

theorem step_eq_some [Tokenizer] {g g' : TableGame} {e : ServerEvent} (h : g.step e = some g') :
    ∃ out t, g.bot.handle e = some (g'.bot, out) ∧ g.table.record g.bot.player.id e = some t ∧
      g.table.seat.next g.bot.player.id out e = some g'.table.seat ∧
      g'.table.seen = t.seen ∧ g'.table.anKong = t.anKong ∧
      ∀ x, g'.table.known.count x ≤ 4 := by
  rw [step] at h
  split at h
  · exact absurd h (by simp)
  · rename_i bot out hhandle
    obtain ⟨table, htable, rfl⟩ := Option.map_eq_some_iff.mp h
    rw [Table.next] at htable
    split at htable
    · rename_i t seat hrecord hseat
      split at htable
      · rename_i hknown
        obtain rfl := Option.some.inj htable
        exact ⟨out, t, hhandle, hrecord, hseat, rfl, rfl, hknown⟩
      · exact absurd htable (by simp)
    · exact absurd htable (by simp)

/-- A run at the table is a run at the seat. -/
theorem step_game [Tokenizer] {g g' : TableGame} {e : ServerEvent} (h : g.step e = some g') :
    g.game.step e = some g'.game := by
  obtain ⟨out, t, hhandle, -, hseat, -⟩ := step_eq_some h
  simp only [Game.step, game, hhandle, hseat, Option.map_some]

/-- The invariant: the bot's hand is known, the discards are the tiles seen, and no
concealed kong was made. -/
structure Inv (g : TableGame) : Prop where
  game : g.game.Inv
  discards : g.bot.player.discards.Counts g.table.seen
  anKong : g.table.anKong = 0
  known : ∀ x, g.table.known.count x ≤ 4

/-- No kind has been seen more than four times. -/
theorem seen_le {t : Table} (h : ∀ x, t.known.count x ≤ 4) (x : Kind) :
    t.seen.count x ≤ 4 := by
  have := h x
  simp only [Table.known, Multiset.count_add] at this
  omega

/-- **The discards** stay the tiles seen. -/
theorem discards_step [Tokenizer] {g g' : TableGame} {e : ServerEvent} (h : g.Inv)
    (hkong : KongCounted g.table.seat e) (hstep : g.step e = some g') :
    g'.bot.player.discards.Counts g'.table.seen ∧ g'.table.anKong = 0 := by
  obtain ⟨out, t, hhandle, hrecord, hseat, hseen, hanKong, hknown⟩ := step_eq_some hstep
  have hroom := seen_le hknown
  rw [hseen] at hroom ⊢
  rw [hanKong]
  cases e with
  | dealTile list =>
      obtain ⟨hbot, -⟩ := Prod.mk.inj (Option.some.inj hhandle)
      obtain rfl := Option.some.inj hrecord
      rw [← hbot]
      exact ⟨MJCards.counts_clearWords h.discards.inRange, rfl⟩
  | draw tile =>
      obtain ⟨hbot, -⟩ := Prod.mk.inj (Option.some.inj hhandle)
      obtain rfl := Option.some.inj hrecord
      rw [← hbot]
      exact ⟨h.discards, h.anKong⟩
  | throw =>
      obtain rfl := Option.some.inj hrecord
      rw [Bot.throw_eq_some hhandle]
      exact ⟨h.discards, h.anKong⟩
  | broadcastThrow id tile =>
      obtain ⟨hbot, -⟩ := Prod.mk.inj (Option.some.inj hhandle)
      obtain ⟨x, hx, rfl⟩ := Option.map_eq_some_iff.mp hrecord
      rw [← hbot]
      simp only [Bot.broadcastThrow, stringToCard_of_tileKind hx]
      refine ⟨h.discards.addCard ?_, h.anKong⟩
      have := hroom x
      simp only [Multiset.count_cons_self] at this
      omega
  | command tiles command idx =>
      obtain ⟨place, hbot⟩ := Bot.command_eq_some hhandle
      have ht : t = g.table := by
        simp only [Table.record] at hrecord
        split at hrecord
        · exact (Option.some.inj hrecord).symm
        · exact (Option.some.inj hrecord).symm
        · exact absurd hrecord (by simp)
      rw [hbot, ht]
      exact ⟨h.discards, h.anKong⟩
  | success command tile =>
      obtain ⟨bot, hbot, hpair⟩ := Option.map_eq_some_iff.mp hhandle
      obtain ⟨rfl, -⟩ := Prod.mk.inj hpair
      obtain ⟨c, hc, hrecord⟩ := Option.bind_eq_some_iff.mp hrecord
      obtain ⟨-, hdiscards, -⟩ := success_spec hc hbot
      split at hrecord
      · obtain rfl := Option.some.inj hrecord
        have hhidden : c.hidden = [] := by simpa [hiddenTiles, hc] using hkong.2
        rw [hdiscards]
        exact ⟨h.discards.addCards hroom, by simp [hhidden, h.anKong]⟩
      · exact absurd hrecord (by simp)
  | broadcastCommand id command tile =>
      obtain ⟨bot, hbot, hpair⟩ := Option.map_eq_some_iff.mp hhandle
      obtain ⟨rfl, -⟩ := Prod.mk.inj hpair
      simp only [Table.record] at hrecord
      by_cases hsame : id = g.bot.player.id ∨ command = CommandType.anGon.code
      · rw [if_pos hsame] at hrecord
        obtain rfl := Option.some.inj hrecord
        rw [broadcastCommand_same hsame hbot]
        exact ⟨h.discards, h.anKong⟩
      · rw [if_neg hsame] at hrecord
        obtain ⟨c, hc, hrecord⟩ := Option.bind_eq_some_iff.mp hrecord
        split at hrecord
        · obtain rfl := Option.some.inj hrecord
          rw [broadcastCommand_spec (fun hid => hsame (Or.inl hid))
            (fun hcommand => hsame (Or.inr hcommand)) hc hbot]
          exact ⟨h.discards.addCards hroom, h.anKong⟩
        · exact absurd hrecord (by simp)
  | other =>
      obtain ⟨hbot, -⟩ := Prod.mk.inj (Option.some.inj hhandle)
      obtain rfl := Option.some.inj hrecord
      rw [← hbot]
      exact ⟨h.discards, h.anKong⟩

/-- **The step lemma.** -/
theorem inv_step [Tokenizer] {g g' : TableGame} {e : ServerEvent} (h : g.Inv)
    (hkong : KongCounted g.table.seat e) (hstep : g.step e = some g') : g'.Inv := by
  obtain ⟨hdiscards, hanKong⟩ := discards_step h hkong hstep
  obtain ⟨-, -, -, -, -, -, -, hknown⟩ := step_eq_some hstep
  exact ⟨Game.inv_step h.game hkong.1 (step_game hstep), hdiscards, hanKong, hknown⟩

theorem inv_init (id : ℤ) : (init id).Inv where
  game := Game.inv_init id
  discards := (Game.inv_init id).hand
  anKong := rfl
  known := by simp [init, Table.known]

/-! ### The remaining tiles -/

/-- Four of each kind. -/
def fullSet : Multiset Kind :=
  4 • (Finset.univ : Finset Kind).val

theorem count_fullSet (x : Kind) : fullSet.count x = 4 := by
  simp [fullSet, Multiset.count_nsmul]

/-- The constants of `Throw` are four of each kind. -/
theorem holds_fullSet :
    Tiles.Holds ⟨fun i => if i = 3 then 0o4444444 else 0o444444444⟩ fullSet := by
  have hget : ∀ k : Kind,
      Tiles.get ⟨fun i => if i = 3 then 0o4444444 else 0o444444444⟩ k.val = 4 := by
    decide
  exact ⟨fun k => by rw [hget, count_fullSet]; rfl, by decide, by decide⟩

/-- `remainTiles` takes the analysed hand and the discards off, without a borrow. -/
theorem holds_remainTiles {p : Irb00} {card : MJCard} {H S : Multiset Kind}
    (hhand : (p.throwHand card).Holds H) (hdiscards : p.discards.Counts S)
    (h4 : ∀ x, (H + S).count x ≤ 4) : (p.remainTiles card).Holds (fullSet - H - S) := by
  have hle : H ≤ fullSet := Multiset.le_iff_count.mpr fun x => by
    have := h4 x
    rw [Multiset.count_add] at this
    rw [count_fullSet]
    omega
  have hle' : S ≤ fullSet - H := Multiset.le_iff_count.mpr fun x => by
    have := h4 x
    rw [Multiset.count_add] at this
    rw [Multiset.count_sub, count_fullSet]
    omega
  exact (holds_fullSet.sub hhand hle).sub hdiscards.holds_handToTiles hle'

/-- Where the rules let a handler call `Throw`, it passes the tile that the turn needs. -/
theorem throwCall_eq [Tokenizer] {g : TableGame} (h : g.Inv) {e : ServerEvent} {card : MJCard}
    (hadmits : g.Admits e) (hcall : throwCall g.bot e = some card) :
    g.table.seat.turn.asksThrow = true ∧ card = g.bot.throwArg := by
  obtain ⟨out, hnext⟩ := hadmits
  rw [Table.next] at hnext
  cases e with
  | throw =>
      refine ⟨?_, (Option.some.inj hcall).symm⟩
      cases hturn : g.table.seat.turn.asksThrow with
      | true => rfl
      | false => simp [Table.record, Seat.next, hturn] at hnext
  | command tiles command idx =>
      simp only [throwCall] at hcall
      split at hcall
      · rename_i hown
        split at hcall
        · have hinv := h.game.hand
          cases hturn : g.table.seat.turn with
          | drawn x =>
              simp only [Game.HandInv, game, hturn] at hinv
              refine ⟨rfl, ?_⟩
              rw [← Option.some.inj hcall, Bot.throwArg, hinv.2.2.2]
              rfl
          | idle | claimed | kong | asked =>
              simp [Table.record, hown.1, hturn] at hnext
        · exact absurd hcall (by simp)
      · exact absurd hcall (by simp)
  | dealTile | draw | broadcastThrow | success | broadcastCommand | other =>
      exact absurd hcall (by simp [throwCall])

end TableGame

/-- **Known-tile accounting.** In a run without concealed kongs, whose other kongs on a
draw use the drawn tile, every call of `Throw` computes how many tiles of each kind are
still to come. -/
theorem known_of_run [Tokenizer] {id : ℤ} {es : List ServerEvent} {g : TableGame}
    (h : Run (fun g e g' => TableGame.step g e = some g' ∧ KongCounted g.table.seat e)
      (TableGame.init id) es g) : KnownExact g := by
  have hinv : g.Inv := h.invariant (I := TableGame.Inv)
    (fun hg hstep => TableGame.inv_step hg hstep.2 hstep.1) (TableGame.inv_init id)
  intro e card hadmits hcall
  obtain ⟨hturn, rfl⟩ := TableGame.throwCall_eq hinv hadmits hcall
  have hknown := hinv.known
  simp only [Table.known, hinv.anKong, add_zero] at hknown
  have hremain : (g.bot.player.remainTiles g.bot.throwArg).Holds
      (TableGame.fullSet - g.table.seat.hand - g.table.seen) :=
    TableGame.holds_remainTiles (hinv.game.holds_throwHand hturn) hinv.discards hknown
  refine ⟨fun x => ?_, hremain.unused⟩
  have hx := hknown x
  rw [hremain.get_eq, Table.known, hinv.anKong, add_zero, Multiset.count_sub,
    Multiset.count_sub, TableGame.count_fullSet]
  simp only [Multiset.count_add] at hx ⊢
  omega

section

open Words

/-- A triplet claim, a throw, and the kong of the triplet with the tile drawn next. -/
def ponGonRun : List ServerEvent :=
  [.dealTile ["c1".toList, "c1".toList, "d5".toList], .broadcastThrow 1 "c1".toList,
    .success CommandType.pon.code "c1".toList, .throw, .broadcastThrow 7 "d5".toList,
    .draw "c1".toList, .success CommandType.ponGon.code "c1".toList, .draw "b3".toList]

theorem known_of_run_example : ∃ g, ponGonRun.foldlM TableGame.step (TableGame.init 7) = some g ∧
    KnownExact g := by
  have hrun : (ponGonRun.foldlM (fun g e =>
      if KongCounted g.table.seat e then TableGame.step g e else none)
      (TableGame.init 7)).isSome = true := by decide +kernel
  obtain ⟨g, hg⟩ := Option.isSome_iff_exists.mp hrun
  have h := run_of_foldlM_guard (P := fun g : TableGame => KongCounted g.table.seat) hg
  exact ⟨g, run_iff_foldlM.mp (h.mono fun hstep => hstep.1), known_of_run h⟩

/-- A dealt hand with three of a kind, the fourth drawn and konged. -/
def forgottenKongRun : List ServerEvent :=
  [.dealTile (["c1", "c1", "c1", "c2", "c3", "c4", "d1", "d2", "d3", "b1", "b2", "b3",
      "o1", "o1", "o2", "o2"].map String.toList),
    .draw "c1".toList, .success CommandType.anGon.code "c1".toList, .draw "b9".toList]

/-- Without the condition this fails: after a concealed kong `Throw` expects all four
of its tiles still to come. -/
theorem not_known : ¬ ∀ (id : ℤ) (es : List ServerEvent) (g : TableGame),
    Run (fun g e g' => TableGame.step g e = some g') (TableGame.init id) es g →
      KnownExact g := by
  intro h
  have hrun : (forgottenKongRun.foldlM TableGame.step (TableGame.init 7)).map (fun g =>
      ((g.table.next g.bot.player.id [.throwTile []] .throw).isSome,
        (g.bot.player.remainTiles g.bot.throwArg).get 0, g.table.known.count 0)) =
      some (true, 4, 4) := by decide +kernel
  obtain ⟨g, hg, hvalues⟩ := Option.map_eq_some_iff.mp hrun
  obtain ⟨hadmits, hget, hcount⟩ :
      (g.table.next g.bot.player.id [.throwTile []] .throw).isSome = true ∧
      (g.bot.player.remainTiles g.bot.throwArg).get 0 = 4 ∧ g.table.known.count 0 = 4 := by
    simpa using hvalues
  have hexact := (h 7 forgottenKongRun g (run_iff_foldlM.mpr hg) .throw _ ⟨_, hadmits⟩ rfl).1 0
  rw [hcount] at hexact
  exact absurd (hget.symm.trans hexact) (by decide)

end

end MahjongAI
