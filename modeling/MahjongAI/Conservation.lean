import MahjongAI.Game
import MahjongAI.Hands

/-!
# Conservation of the Hand

The bot keeps its concealed tiles in `Hand`, except for a drawn tile, which waits in
`drawTile` until the `throw` handler adds it. `Seat` follows the same events by the rules
of the game: the multiset of tiles that the bot really holds, its melded triplets, and
whose move it is. `Game.step` runs the handler and the rules side by side and stops where
an event is against the rules.

## Main results

* `Game.HandInv`: what the bot knows in each turn, kept by every step (`inv_step`) whose
  kong, if it is one declared on a draw, uses the drawn tile (`KongOnDrawn`).
* `conserved_of_run`: in a run of such steps, every `throw` analyses exactly the tiles
  held, and after each own `broadcastThrow` the hand is exact.
* `not_conserved`: a kong that leaves the drawn tile aside loses it.
-/

open Runs

namespace MahjongAI

/-! ### Tiles in messages -/

/-- The kind that a tile text names. -/
def tileKind (tile : List Char) : Option Kind :=
  (List.finRange 34).find? fun k => cardOf k = stringToCard tile

theorem stringToCard_of_tileKind {tile : List Char} {k : Kind} (h : tileKind tile = some k) :
    stringToCard tile = cardOf k := by
  have hk := List.find?_some h
  exact (of_decide_eq_true hk).symm

/-- The two tiles that a run claim takes from the claimer, and the claimed tile. -/
def eatTiles [Tokenizer] (tile : List Char) : Option (List Kind × Kind) :=
  match tokens tile with
  | first :: center :: _ =>
      match tileKind first, tileKind center with
      | some y, some c =>
          if RunStart y ∧ c ∈ [y, y + 1, y + 2] then some ([y, y + 1, y + 2].erase c, c) else none
      | _, _ => none
  | _ => none

/-- The handlers' loop over a run finds the two tiles. -/
theorem runOthers_of_eatTiles [Tokenizer] {tile : List Char} {S : List Kind} {c : Kind}
    (h : eatTiles tile = some (S, c)) :
    ∃ first center rest, tokens tile = first :: center :: rest ∧
      runOthers (stringToCard first) (stringToCard center) = S.map cardOf := by
  have hruns : ∀ y : Kind, RunStart y → ∀ c ∈ [y, y + 1, y + 2],
      runOthers (cardOf y) (cardOf c) = ([y, y + 1, y + 2].erase c).map cardOf := by
    decide +kernel
  rw [eatTiles] at h
  split at h
  · rename_i first center rest htokens
    split at h
    · rename_i y c' hfirst hcenter
      split at h
      · rename_i hrun
        obtain ⟨rfl, rfl⟩ := Prod.mk.inj (Option.some.inj h)
        refine ⟨first, center, rest, htokens, ?_⟩
        rw [stringToCard_of_tileKind hfirst, stringToCard_of_tileKind hcenter]
        exact hruns y hrun.1 c' hrun.2
      · exact absurd h (by simp)
    · exact absurd h (by simp)
  · exact absurd h (by simp)

/-- The texts of a deal. -/
theorem map_stringToCard_of_mapM {list : List (List Char)} {ks : List Kind}
    (h : list.mapM tileKind = some ks) : list.map stringToCard = ks.map cardOf := by
  induction list generalizing ks with
  | nil =>
      obtain rfl : [] = ks := by simpa using h
      rfl
  | cons tile list ih =>
      rw [List.mapM_cons] at h
      obtain ⟨k, hk, h⟩ := Option.bind_eq_some_iff.mp h
      obtain ⟨ks', hks', h⟩ := Option.bind_eq_some_iff.mp h
      obtain rfl : k :: ks' = ks := by simpa using h
      rw [List.map_cons, List.map_cons, ih hks', stringToCard_of_tileKind hk]

/-! ### Card sets in loops -/

namespace MJCards

theorem Counts.subCards {s : MJCards} {H : Multiset Kind} (h : s.Counts H) (ks : List Kind) :
    (s.subCards (ks.map cardOf)).Counts (H - ks) := by
  induction ks generalizing s H with
  | nil => rwa [Multiset.coe_nil, tsub_zero]
  | cons k ks ih =>
      have := ih (h.subCard k)
      rwa [← Multiset.cons_coe, Multiset.sub_cons]

theorem Counts.addCards {s : MJCards} {H : Multiset Kind} (h : s.Counts H) {ks : List Kind}
    (hroom : ∀ x, (H + ks).count x ≤ 4) : (s.addCards (ks.map cardOf)).Counts (H + ks) := by
  induction ks generalizing s H with
  | nil => rwa [Multiset.coe_nil, add_zero]
  | cons k ks ih =>
      have hcons : H + ↑(k :: ks) = k ::ₘ H + ks := by
        rw [← Multiset.cons_coe, Multiset.add_cons, Multiset.cons_add]
      rw [hcons] at hroom ⊢
      have hk : H.count k < 4 := by
        have := hroom k
        rw [Multiset.count_add, Multiset.count_cons_self] at this
        omega
      exact ih (h.addCard hk) hroom

end MJCards

/-! ### Claims and kongs -/

/-- A claim or a kong that was carried out: a run claim with the two tiles that make the run
with the claimed one, a triplet claim, a kong of a claimed tile, a kong of a melded triplet,
a concealed kong; or a command that moves no tiles. -/
inductive Claim
  | eat (S : List Kind) (claimed : Kind)
  | pon (x : Kind)
  | gon (x : Kind)
  | ponGon (x : Kind)
  | anGon (x : Kind)
  | nothing

namespace Claim

/-- The claim that a command number and its tile text announce. -/
def read [Tokenizer] (command : ℤ) (tile : List Char) : Option Claim :=
  if command = CommandType.eat.code then (eatTiles tile).map fun r => .eat r.1 r.2
  else if command = CommandType.pon.code then (tileKind tile).map .pon
  else if command = CommandType.gon.code then (tileKind tile).map .gon
  else if command = CommandType.ponGon.code then (tileKind tile).map .ponGon
  else if command = CommandType.anGon.code then (tileKind tile).map .anGon
  else some .nothing

/-- The tiles that leave the concealed tiles of the claimer. -/
def taken : Claim → List Kind
  | .eat S _ => S
  | .pon x => List.replicate 2 x
  | .gon x => List.replicate 3 x
  | .ponGon x => List.replicate 1 x
  | .anGon x => List.replicate 4 x
  | .nothing => []

/-- The tiles among them that everybody gets to see. -/
def shown : Claim → List Kind
  | .anGon _ => []
  | c => c.taken

/-- A run or triplet claim is followed by a throw. -/
def isMeld : Claim → Bool
  | .eat _ _ | .pon _ => true
  | _ => false

end Claim

/-- Copies of one tile in the handlers' loops. -/
theorem replicate_of_tileKind {tile : List Char} {x : Kind} (hx : tileKind tile = some x)
    (n : ℕ) : List.replicate n (stringToCard tile) = (List.replicate n x).map cardOf := by
  rw [stringToCard_of_tileKind hx, List.map_replicate]

/-- **What the `success` handler does**: the tiles of the claim leave the hand, the shown
ones join the discards. -/
theorem success_spec [Tokenizer] {b b' : Bot} {command : ℤ} {tile : List Char} {c : Claim}
    (hc : Claim.read command tile = some c) (h : b.success command tile = some b') :
    b'.player.Hand = b.player.Hand.subCards (c.taken.map cardOf) ∧
      b'.player.discards = b.player.discards.addCards (c.shown.map cardOf) ∧
      b'.player.id = b.player.id ∧ b'.drawTile = b.drawTile ∧
      b'.onlyThrow = (c.isMeld || b.onlyThrow) := by
  rw [Claim.read] at hc
  rw [Bot.success] at h
  by_cases heat : command = CommandType.eat.code
  · rw [if_pos heat] at hc h
    obtain ⟨⟨S, x⟩, hS, rfl⟩ := Option.map_eq_some_iff.mp hc
    obtain ⟨first, center, rest, htokens, hothers⟩ := runOthers_of_eatTiles hS
    simp only [htokens, hothers] at h
    obtain rfl := Option.some.inj h
    exact ⟨rfl, rfl, rfl, rfl, rfl⟩
  rw [if_neg heat] at hc h
  by_cases hpon : command = CommandType.pon.code
  · rw [if_pos hpon] at hc h
    obtain ⟨x, hx, rfl⟩ := Option.map_eq_some_iff.mp hc
    simp only [replicate_of_tileKind hx] at h
    obtain rfl := Option.some.inj h
    exact ⟨rfl, rfl, rfl, rfl, rfl⟩
  rw [if_neg hpon] at hc h
  by_cases hgon : command = CommandType.gon.code
  · rw [if_pos hgon] at hc h
    obtain ⟨x, hx, rfl⟩ := Option.map_eq_some_iff.mp hc
    simp only [replicate_of_tileKind hx] at h
    obtain rfl := Option.some.inj h
    exact ⟨rfl, rfl, rfl, rfl, rfl⟩
  rw [if_neg hgon] at hc h
  by_cases hponGon : command = CommandType.ponGon.code
  · rw [if_pos hponGon] at hc h
    obtain ⟨x, hx, rfl⟩ := Option.map_eq_some_iff.mp hc
    simp only [replicate_of_tileKind hx] at h
    obtain rfl := Option.some.inj h
    exact ⟨rfl, rfl, rfl, rfl, rfl⟩
  rw [if_neg hponGon] at hc h
  by_cases hanGon : command = CommandType.anGon.code
  · rw [if_pos hanGon] at hc h
    obtain ⟨x, hx, rfl⟩ := Option.map_eq_some_iff.mp hc
    simp only [replicate_of_tileKind hx] at h
    obtain rfl := Option.some.inj h
    exact ⟨rfl, rfl, rfl, rfl, rfl⟩
  rw [if_neg hanGon] at hc h
  obtain rfl := Option.some.inj hc
  obtain rfl := Option.some.inj h
  exact ⟨rfl, rfl, rfl, rfl, rfl⟩

/-! ### The rules -/

/-- Where the bot stands in the course of the game: nothing to do, with a drawn tile, with a
claim or a kong just made, or asked to throw, with the answer it gave. -/
inductive Turn
  | idle
  | drawn (x : Kind)
  | claimed
  | kong
  | asked (answer : List Char)
  deriving DecidableEq

/-- A throw is asked for after a draw and after a claim. -/
def Turn.asksThrow : Turn → Bool
  | .drawn _ | .claimed => true
  | _ => false

/-- A kong is declared in the bot's own turn or out of it, but not while a replacement tile
or a throw is due. -/
def Turn.mayKong : Turn → Bool
  | .idle | .drawn _ | .claimed => true
  | _ => false

/-- The seat of the bot as the rules see it: its concealed tiles, its melded triplets and
its turn. -/
structure Seat where
  hand : Multiset Kind
  pons : Multiset Kind
  turn : Turn

namespace Seat

/-- When an own claim or kong is allowed: its tiles are in the hand; a claim needs somebody
else's turn; a melded triplet and the claimed tile count towards the four copies. -/
def Allows (s : Seat) (c : Claim) : Prop :=
  (c.taken : Multiset Kind) ≤ s.hand ∧
    match c with
    | .eat _ _ => s.turn = .idle
    | .pon x => s.turn = .idle ∧ s.hand.count x + 3 * s.pons.count x < 4
    | .gon _ => s.turn = .idle
    | .ponGon x => s.turn.mayKong ∧ x ∈ s.pons
    | .anGon _ => s.turn.mayKong
    | .nothing => True

instance (s : Seat) (c : Claim) : Decidable (s.Allows c) := by
  simp only [Allows]
  cases c <;> infer_instance

/-- The seat after an own claim or kong. -/
def succeed (s : Seat) (c : Claim) : Seat where
  hand := s.hand - c.taken
  pons :=
    match c with
    | .pon x => x ::ₘ s.pons
    | .ponGon x => s.pons.erase x
    | _ => s.pons
  turn :=
    match c with
    | .eat _ _ | .pon _ => .claimed
    | .gon _ | .ponGon _ | .anGon _ => .kong
    | .nothing => s.turn

/-- The seat after an event, if the event follows the rules: no flowers; a tile that is
dealt, drawn, claimed, konged or thrown is there to be; a throw is asked for only after a
draw or a claim, its answer is what is announced, and a kong waits for its replacement. -/
def next [Tokenizer] (id : ℤ) (s : Seat) (out : List Emit) : ServerEvent → Option Seat
  | .dealTile list =>
      match list.mapM tileKind with
      | some ks => if ∀ x, ks.count x ≤ 4 then some ⟨ks, 0, .idle⟩ else none
      | none => none
  | .draw tile =>
      match tileKind tile with
      | some x =>
          if (s.turn = .idle ∨ s.turn = .kong) ∧ s.hand.count x + 3 * s.pons.count x < 4 then
            some { s with hand := x ::ₘ s.hand, turn := .drawn x }
          else none
      | none => none
  | .throw =>
      match s.turn.asksThrow, out with
      | true, [.throwTile answer] => some { s with turn := .asked answer }
      | _, _ => none
  | .broadcastThrow i tile =>
      match tileKind tile with
      | some x =>
          if i = id then
            if s.turn = .asked tile ∧ x ∈ s.hand then
              some { s with hand := s.hand.erase x, turn := .idle }
            else none
          else some s
      | none => none
  | .success command tile =>
      match Claim.read command tile with
      | some c => if s.Allows c then some (s.succeed c) else none
      | none => none
  | _ => some s

end Seat

/-- The bot at its seat. -/
structure Game where
  bot : Bot
  seat : Seat

namespace Game

/-- Before the first deal. -/
def init (id : ℤ) : Game :=
  ⟨Bot.init id, ⟨0, 0, .idle⟩⟩

/-- One event: the handler runs, and the rules allow the event. -/
def step [Tokenizer] (g : Game) (e : ServerEvent) : Option Game :=
  match g.bot.handle e with
  | none => none
  | some (bot, out) => (g.seat.next g.bot.player.id out e).map fun seat => ⟨bot, seat⟩

/-- What the bot knows of its hand in each turn. -/
def HandInv (g : Game) : Prop :=
  match g.seat.turn with
  | .drawn x =>
      x ∈ g.seat.hand ∧ g.bot.player.Hand.Counts (g.seat.hand.erase x) ∧
        g.bot.drawTile = cardOf x ∧ g.bot.onlyThrow = false
  | .claimed => g.bot.player.Hand.Counts g.seat.hand ∧ g.bot.onlyThrow = true
  | _ => g.bot.player.Hand.Counts g.seat.hand

/-- The invariant: the hand is known, and no kind has more than four copies. -/
structure Inv (g : Game) : Prop where
  hand : g.HandInv
  copies : ∀ x, g.seat.hand.count x + 3 * g.seat.pons.count x ≤ 4

end Game

/-- A kong declared on a draw uses the drawn tile. -/
def KongOnDrawn [Tokenizer] (s : Seat) : ServerEvent → Prop
  | .success command tile =>
      match s.turn, Claim.read command tile with
      | .drawn d, some (.ponGon x) => x = d
      | .drawn d, some (.anGon x) => x = d
      | _, _ => True
  | _ => True

/-- What is promised of a state that a sequence of events leads to. -/
structure Conserved (es : List ServerEvent) (g : Game) : Prop where
  throw : g.seat.turn.asksThrow = true →
    (g.bot.player.throwHand g.bot.throwArg).Holds g.seat.hand
  broadcast : ∀ tile, es.getLast? = some (.broadcastThrow g.bot.player.id tile) →
    g.bot.player.Hand.Counts g.seat.hand

/-! ### The steps -/

/-- Clearing the words of a card set empties it but for the flowers. -/
theorem MJCards.counts_clearWords {s : MJCards} (h : s.InRange) : s.clearWords.Counts 0 := by
  refine ⟨⟨?_, ?_, ?_⟩, fun k => ?_⟩
  · intro c h0 h5
    rw [get_clearWords s h0 h5]
    split
    · exact h.get_nonneg 5 (by norm_num) (by norm_num)
    · exact le_rfl
  · intro c h0 h5
    rw [get_clearWords s h0 h5]
    split
    · rename_i hc
      rw [hc]
      exact h.get_lt 5 (by norm_num) (by norm_num)
    · positivity
  · intro card hcard
    rw [countCard_clearWords s hcard]
    split
    · exact h.countCard_le card hcard
    · rw [fieldCap]
      split <;> norm_num
  · have hcol : (cardOf k).color ≠ 5 := by
      revert k
      decide
    rw [countCard_clearWords s (cardOf_valid k), if_neg hcol]
    rfl

namespace Game

/-- In every turn the card set of the hand is in range. -/
theorem HandInv.inRange {g : Game} (h : g.HandInv) : g.bot.player.Hand.InRange := by
  rw [HandInv] at h
  split at h
  · exact h.2.1.inRange
  · exact h.1.inRange
  · exact h.inRange

/-- Outside a draw the bot's hand is exact. -/
theorem HandInv.counts {g : Game} (h : g.HandInv) (hturn : ∀ x, g.seat.turn ≠ .drawn x) :
    g.bot.player.Hand.Counts g.seat.hand := by
  rw [HandInv] at h
  split at h
  · rename_i x hx
    exact absurd hx (hturn x)
  · exact h.1
  · exact h

/-- A turn that is neither a draw nor a claim asks for nothing but an exact hand. -/
theorem handInv_of_counts {g : Game} (h : g.bot.player.Hand.Counts g.seat.hand)
    (hturn : g.seat.turn.asksThrow = false) : g.HandInv := by
  rw [HandInv]
  split
  · rename_i hx
    simp [hx, Turn.asksThrow] at hturn
  · rename_i hx
    simp [hx, Turn.asksThrow] at hturn
  · exact h

/-- Nothing that the invariant speaks about has changed. -/
theorem Inv.congr {g g' : Game} (h : g.Inv) (hseat : g'.seat = g.seat)
    (hHand : g'.bot.player.Hand = g.bot.player.Hand) (hdraw : g'.bot.drawTile = g.bot.drawTile)
    (honly : g'.bot.onlyThrow = g.bot.onlyThrow) : g'.Inv := by
  obtain ⟨hhand, hcopies⟩ := h
  refine ⟨?_, by rwa [hseat]⟩
  simp only [HandInv] at *
  rwa [hseat, hHand, hdraw, honly]

theorem step_eq_some [Tokenizer] {g g' : Game} {e : ServerEvent} (h : g.step e = some g') :
    ∃ out, g.bot.handle e = some (g'.bot, out) ∧
      g.seat.next g.bot.player.id out e = some g'.seat := by
  rw [step] at h
  split at h
  · exact absurd h (by simp)
  · rename_i bot out hhandle
    obtain ⟨seat, hseat, rfl⟩ := Option.map_eq_some_iff.mp h
    exact ⟨out, hhandle, hseat⟩

/-- A deal. -/
theorem inv_dealTile [Tokenizer] {g g' : Game} (h : g.Inv) {list : List (List Char)}
    (hstep : g.step (.dealTile list) = some g') : g'.Inv := by
  obtain ⟨out, hhandle, hseat⟩ := step_eq_some hstep
  obtain ⟨hbot, -⟩ := Prod.mk.inj (Option.some.inj hhandle)
  simp only [Seat.next] at hseat
  split at hseat
  · rename_i ks hks
    split at hseat
    · rename_i hcopies
      have hseat := Option.some.inj hseat
      have hclear := MJCards.counts_clearWords h.hand.inRange
      have hadd : (g.bot.player.Hand.clearWords.addCards (ks.map cardOf)).Counts (0 + ks) :=
        hclear.addCards (by simpa using hcopies)
      rw [zero_add, ← map_stringToCard_of_mapM hks] at hadd
      refine ⟨handInv_of_counts ?_ (by rw [← hseat]; rfl), ?_⟩
      · rw [← hbot, ← hseat]
        exact hadd
      · rw [← hseat]
        simpa using hcopies
    · exact absurd hseat (by simp)
  · exact absurd hseat (by simp)

/-- A draw. -/
theorem inv_draw [Tokenizer] {g g' : Game} (h : g.Inv) {tile : List Char}
    (hstep : g.step (.draw tile) = some g') : g'.Inv := by
  obtain ⟨out, hhandle, hseat⟩ := step_eq_some hstep
  obtain ⟨hbot, -⟩ := Prod.mk.inj (Option.some.inj hhandle)
  simp only [Seat.next] at hseat
  split at hseat
  · rename_i x hx
    split at hseat
    · rename_i hrule
      have hseat := Option.some.inj hseat
      have hcounts := h.hand.counts fun y hy => by rw [hy] at hrule; simp at hrule
      refine ⟨?_, fun y => ?_⟩
      · simp only [HandInv, ← hseat, ← hbot]
        exact ⟨Multiset.mem_cons_self x _, by rwa [Multiset.erase_cons_head],
          stringToCard_of_tileKind hx, trivial⟩
      · have := h.copies y
        rw [← hseat]
        simp only [Multiset.count_cons]
        split
        · rename_i hyx
          rw [hyx]
          omega
        · omega
    · exact absurd hseat (by simp)
  · exact absurd hseat (by simp)

/-- A throw is asked for: the drawn tile joins the hand. -/
theorem inv_throw [Tokenizer] {g g' : Game} (h : g.Inv) (hstep : g.step .throw = some g') : g'.Inv
    := by
  obtain ⟨out, hhandle, hseat⟩ := step_eq_some hstep
  have hHand : g'.bot.player.Hand = if g.bot.onlyThrow then g.bot.player.Hand
      else g.bot.player.Hand.addCard g.bot.drawTile := by
    rw [Bot.throw_eq_some hhandle]
  simp only [Seat.next] at hseat
  split at hseat
  · rename_i answer hturn
    have hseat := Option.some.inj hseat
    refine ⟨handInv_of_counts ?_ (by rw [← hseat]; rfl), by rw [← hseat]; exact h.copies⟩
    rw [hHand, ← hseat]
    have hinv := h.hand
    rw [HandInv] at hinv
    split at hinv
    · rename_i x hx
      obtain ⟨hmem, hcounts, hdraw, honly⟩ := hinv
      rw [honly, hdraw, if_neg (by simp)]
      have hroom : (g.seat.hand.erase x).count x < 4 := by
        have := h.copies x
        have := Multiset.count_pos.mpr hmem
        rw [Multiset.count_erase_self]
        omega
      have := hcounts.addCard hroom
      rwa [Multiset.cons_erase hmem] at this
    · rw [hinv.2, if_pos rfl]
      exact hinv.1
    · rename_i hdrawn hclaimed
      cases hg : g.seat.turn with
      | drawn x => exact absurd hg (hdrawn x)
      | claimed => exact absurd hg hclaimed
      | idle | kong | asked => simp [hg, Turn.asksThrow] at hturn
  · exact absurd hseat (by simp)

/-- A throw is announced. -/
theorem inv_broadcastThrow [Tokenizer] {g g' : Game} (h : g.Inv) {id : ℤ} {tile : List Char}
    (hstep : g.step (.broadcastThrow id tile) = some g') : g'.Inv := by
  obtain ⟨out, hhandle, hseat⟩ := step_eq_some hstep
  obtain ⟨hbot, -⟩ := Prod.mk.inj (Option.some.inj hhandle)
  simp only [Seat.next] at hseat
  split at hseat
  · rename_i x hx
    by_cases hid : id = g.bot.player.id
    · rw [if_pos hid] at hseat
      split at hseat
      · rename_i hrule
        have hseat := Option.some.inj hseat
        have hcounts := h.hand.counts fun y hy => by rw [hrule.1] at hy; simp at hy
        refine ⟨handInv_of_counts ?_ (by rw [← hseat]; rfl), fun y => ?_⟩
        · rw [← hbot, ← hseat]
          simp only [Bot.broadcastThrow, if_pos hid, stringToCard_of_tileKind hx]
          exact hcounts.subCard x
        · have := h.copies y
          have := Multiset.count_le_of_le y (Multiset.erase_le x g.seat.hand)
          rw [← hseat]
          simp only
          omega
      · exact absurd hseat (by simp)
    · rw [if_neg hid] at hseat
      have hseat := (Option.some.inj hseat).symm
      refine h.congr hseat ?_ ?_ ?_
      all_goals rw [← hbot]
      · simp only [Bot.broadcastThrow, if_neg hid]
      · rfl
      · rfl
  · exact absurd hseat (by simp)

/-- The bot's card set when it may declare a kong: the whole hand, or the hand without the
tile just drawn. -/
theorem HandInv.counts_or {g : Game} (h : g.HandInv) :
    g.bot.player.Hand.Counts g.seat.hand ∨ ∃ d, g.seat.turn = .drawn d ∧ d ∈ g.seat.hand ∧
      g.bot.player.Hand.Counts (g.seat.hand.erase d) := by
  rw [HandInv] at h
  split at h
  · rename_i d hd
    exact Or.inr ⟨d, hd, h.1, h.2.1⟩
  · exact Or.inl h.1
  · exact Or.inl h

/-- The last tile of a melded triplet leaves the hand, also when it was just drawn. -/
theorem counts_ponGon {g : Game} (h : g.Inv) {x : Kind} (hpon : x ∈ g.seat.pons)
    (hdrawn : ∀ d, g.seat.turn = .drawn d → x = d) :
    (g.bot.player.Hand.subCard (cardOf x)).Counts (g.seat.hand.erase x) := by
  rcases h.hand.counts_or with hcounts | ⟨d, hd, -, hcounts⟩
  · exact hcounts.subCard x
  · obtain rfl := hdrawn d hd
    have hsub := hcounts.subCard x
    have hnot : x ∉ g.seat.hand.erase x := by
      have := h.copies x
      have := Multiset.count_pos.mpr hpon
      rw [← Multiset.count_eq_zero, Multiset.count_erase_self]
      omega
    rwa [Multiset.erase_of_notMem hnot] at hsub

/-- The four tiles of a concealed kong leave the hand, also when one was just drawn. -/
theorem counts_anGon {g : Game} (h : g.Inv) {x : Kind}
    (hdrawn : ∀ d, g.seat.turn = .drawn d → x = d) :
    (g.bot.player.Hand.subCards ((List.replicate 4 x).map cardOf)).Counts
      (g.seat.hand - Multiset.replicate 4 x) := by
  rcases h.hand.counts_or with hcounts | ⟨d, hd, -, hcounts⟩
  · exact hcounts.subCards (List.replicate 4 x)
  · obtain rfl := hdrawn d hd
    have hsub := hcounts.subCards (List.replicate 4 x)
    have heq : g.seat.hand.erase x - ↑(List.replicate 4 x) =
        g.seat.hand - Multiset.replicate 4 x := by
      refine Multiset.ext.mpr fun y => ?_
      have := h.copies x
      rw [Multiset.coe_replicate, Multiset.count_sub, Multiset.count_sub,
        Multiset.count_replicate]
      by_cases hy : x = y
      · subst hy
        rw [Multiset.count_erase_self, if_pos rfl]
        omega
      · rw [Multiset.count_erase_of_ne (Ne.symm hy), if_neg hy]
    rwa [heq] at hsub

/-- An own claim or kong leaves every kind its four copies: a melded triplet counts three,
one of which was claimed. -/
theorem copies_succeed {g : Game} (h : g.Inv) {c : Claim} (hallows : g.seat.Allows c) (x : Kind) :
    (g.seat.succeed c).hand.count x + 3 * (g.seat.succeed c).pons.count x ≤ 4 := by
  have hcopies := h.copies x
  have hless : (g.seat.hand - ↑c.taken).count x ≤ g.seat.hand.count x :=
    Multiset.count_le_of_le x tsub_le_self
  cases c with
  | pon y =>
      have htwo := Multiset.le_count_iff_replicate_le.mpr hallows.1
      have hroom := hallows.2.2
      simp only [Seat.succeed, Claim.taken, Multiset.coe_replicate, Multiset.count_sub,
        Multiset.count_replicate, Multiset.count_cons]
      by_cases hy : x = y
      · subst hy
        rw [if_pos rfl, if_pos rfl]
        omega
      · rw [if_neg (Ne.symm hy), if_neg hy]
        omega
  | ponGon y =>
      have := Multiset.count_le_of_le x (Multiset.erase_le y g.seat.pons)
      simp only [Seat.succeed]
      omega
  | eat | gon | anGon | nothing =>
      simp only [Seat.succeed]
      omega

/-- An own claim or kong. -/
theorem inv_success [Tokenizer] {g g' : Game} (h : g.Inv) {command : ℤ} {tile : List Char}
    (hkong : KongOnDrawn g.seat (.success command tile))
    (hstep : g.step (.success command tile) = some g') : g'.Inv := by
  obtain ⟨out, hhandle, hseat⟩ := step_eq_some hstep
  obtain ⟨bot, hbot, hpair⟩ := Option.map_eq_some_iff.mp hhandle
  obtain ⟨rfl, -⟩ := Prod.mk.inj hpair
  simp only [Seat.next] at hseat
  split at hseat
  · rename_i c hc
    split at hseat
    · rename_i hallows
      obtain ⟨hHand, -, -, hdraw, honly⟩ := success_spec hc hbot
      have hseat := Option.some.inj hseat
      refine ⟨?_, by rw [← hseat]; exact copies_succeed h hallows⟩
      cases c with
      | eat S x =>
          have hcounts := h.hand.counts fun y hy => by rw [hallows.2] at hy; simp at hy
          simp only [HandInv, ← hseat, Seat.succeed]
          exact ⟨hHand ▸ hcounts.subCards S, honly⟩
      | pon x =>
          have hcounts := h.hand.counts fun y hy => by rw [hallows.2.1] at hy; simp at hy
          simp only [HandInv, ← hseat, Seat.succeed]
          exact ⟨hHand ▸ hcounts.subCards (List.replicate 2 x), honly⟩
      | gon x =>
          have hcounts := h.hand.counts fun y hy => by rw [hallows.2] at hy; simp at hy
          refine handInv_of_counts ?_ (by rw [← hseat]; rfl)
          rw [hHand, ← hseat]
          exact hcounts.subCards (List.replicate 3 x)
      | ponGon x =>
          refine handInv_of_counts ?_ (by rw [← hseat]; rfl)
          rw [hHand, ← hseat]
          have hcounts := counts_ponGon h hallows.2.2 fun d hd => by
            simpa [KongOnDrawn, hd, hc] using hkong
          simpa [Seat.succeed, Claim.taken, MJCards.subCards] using hcounts
      | anGon x =>
          refine handInv_of_counts ?_ (by rw [← hseat]; rfl)
          rw [hHand, ← hseat]
          exact counts_anGon h fun d hd => by simpa [KongOnDrawn, hd, hc] using hkong
      | nothing =>
          have hsame : g'.Inv :=
            h.congr (by rw [← hseat]; simp [Seat.succeed, Claim.taken]) hHand hdraw honly
          exact hsame.hand
    · exact absurd hseat (by simp)
  · exact absurd hseat (by simp)

/-- **The step lemma.** -/
theorem inv_step [Tokenizer] {g g' : Game} {e : ServerEvent} (h : g.Inv)
    (hkong : KongOnDrawn g.seat e)
    (hstep : g.step e = some g') : g'.Inv := by
  cases e with
  | dealTile list => exact inv_dealTile h hstep
  | draw tile => exact inv_draw h hstep
  | throw => exact inv_throw h hstep
  | broadcastThrow id tile => exact inv_broadcastThrow h hstep
  | command tiles command idx =>
      obtain ⟨out, hhandle, hseat⟩ := step_eq_some hstep
      obtain ⟨place, hbot⟩ := Bot.command_eq_some hhandle
      refine h.congr (Option.some.inj hseat).symm ?_ ?_ ?_ <;> rw [hbot]
  | success command tile => exact inv_success h hkong hstep
  | broadcastCommand id command tile =>
      obtain ⟨out, hhandle, hseat⟩ := step_eq_some hstep
      obtain ⟨bot, hbot, hpair⟩ := Option.map_eq_some_iff.mp hhandle
      obtain ⟨rfl, -⟩ := Prod.mk.inj hpair
      obtain ⟨discards, hbot⟩ := Bot.broadcastCommand_eq_some hbot
      refine h.congr (Option.some.inj hseat).symm ?_ ?_ ?_ <;> rw [hbot]
  | other =>
      obtain ⟨out, hhandle, hseat⟩ := step_eq_some hstep
      obtain ⟨hbot, -⟩ := Prod.mk.inj (Option.some.inj hhandle)
      refine h.congr (Option.some.inj hseat).symm ?_ ?_ ?_ <;> rw [← hbot]

theorem inv_init (id : ℤ) : (init id).Inv where
  hand := by
    have hempty : ∀ k : Kind, (MJCards.make false).countCard (cardOf k) = 0 := by decide
    exact ⟨MJCards.inRange_make false, hempty⟩
  copies := by simp [init]

/-- With the invariant, a `throw` analyses the tiles that are held. -/
theorem Inv.holds_throwHand {g : Game} (h : g.Inv) (hturn : g.seat.turn.asksThrow = true) :
    (g.bot.player.throwHand g.bot.throwArg).Holds g.seat.hand := by
  have hinv := h.hand
  rw [HandInv] at hinv
  rw [Irb00.throwHand, Bot.throwArg]
  split at hinv
  · rename_i x hx
    obtain ⟨hmem, hcounts, hdraw, honly⟩ := hinv
    have hcolor : (cardOf x).color ≠ -100 := by
      have := (cardOf_valid x).1
      omega
    have hroom : (g.seat.hand.erase x).count x < 7 := by
      have := h.copies x
      rw [Multiset.count_erase_self]
      omega
    simp only [honly, Bool.false_eq_true, if_false, hdraw, hcolor]
    have := hcounts.holds_handToTiles.addCard hroom
    rwa [Multiset.cons_erase hmem] at this
  · simp only [hinv.2, if_true]
    exact hinv.1.holds_handToTiles
  · rename_i hdrawn hclaimed
    cases hg : g.seat.turn with
    | drawn x => exact absurd hg (hdrawn x)
    | claimed => exact absurd hg hclaimed
    | idle | kong | asked => simp [hg, Turn.asksThrow] at hturn

end Game

/-- **Conservation of the hand.** In a run whose kongs on a draw use the drawn tile, every
`throw` analyses the tiles that the bot holds, and its own announced throw leaves `Hand`
equal to them. -/
theorem conserved_of_run [Tokenizer] {id : ℤ} {es : List ServerEvent} {g : Game}
    (h : Run (fun g e g' => Game.step g e = some g' ∧ KongOnDrawn g.seat e) (Game.init id) es g) :
    Conserved es g := by
  have hinv : g.Inv := h.invariant (I := Game.Inv)
    (fun hg hstep => Game.inv_step hg hstep.2 hstep.1) (Game.inv_init id)
  refine ⟨hinv.holds_throwHand, fun tile hlast => ?_⟩
  cases h with
  | nil => simp at hlast
  | snoc hrun hstep =>
      rename_i g₀ es e
      obtain rfl : e = .broadcastThrow g.bot.player.id tile := by simpa using hlast
      refine hinv.hand.counts fun x hx => ?_
      obtain ⟨out, hhandle, hseat⟩ := Game.step_eq_some hstep.1
      obtain ⟨hbot, -⟩ := Prod.mk.inj (Option.some.inj hhandle)
      have hid : g.bot.player.id = g₀.bot.player.id := by rw [← hbot]; rfl
      simp only [Seat.next, hid, if_true] at hseat
      split at hseat
      · split at hseat
        · have hturn := congrArg Seat.turn (Option.some.inj hseat)
          rw [hx] at hturn
          exact absurd hturn (by simp)
        · exact absurd hseat (by simp)
      · exact absurd hseat (by simp)

instance [Tokenizer] (s : Seat) (e : ServerEvent) : Decidable (KongOnDrawn s e) := by
  simp only [KongOnDrawn]
  split
  · split <;> infer_instance
  · infer_instance

section

open Words

/-- Three of a kind in hand, the fourth drawn and konged, a replacement drawn and thrown. -/
def kongRun : List ServerEvent :=
  [.dealTile ["c1".toList, "c1".toList, "c1".toList], .draw "c1".toList,
    .success CommandType.anGon.code "c1".toList, .draw "d5".toList, .throw,
    .broadcastThrow 7 "d5".toList]

theorem conserved_of_run_example : ∃ g, kongRun.foldlM Game.step (Game.init 7) = some g ∧
    Conserved kongRun g := by
  have hrun : (kongRun.foldlM (fun g e => if KongOnDrawn g.seat e then Game.step g e else none)
      (Game.init 7)).isSome = true := by decide +kernel
  obtain ⟨g, hg⟩ := Option.isSome_iff_exists.mp hrun
  have h := run_of_foldlM_guard (P := fun g : Game => KongOnDrawn g.seat) hg
  exact ⟨g, run_iff_foldlM.mp (h.mono fun hstep => hstep.1), conserved_of_run h⟩

/-- A dealt hand with four of a kind and the kong of these four when another tile was
drawn: the bot loses the drawn tile. -/
def lostDrawRun : List ServerEvent :=
  [.dealTile (["c1", "c1", "c1", "c1", "c2", "c3", "c4", "d1", "d2", "d3", "b1", "b2", "b3",
      "o1", "o1", "o2"].map String.toList),
    .draw "d9".toList, .success CommandType.anGon.code "c1".toList, .draw "b9".toList]

/-- Without the condition this fails: the second draw is analysed without the first. -/
theorem not_conserved : ¬ ∀ (id : ℤ) (es : List ServerEvent) (g : Game),
    Run (fun g e g' => Game.step g e = some g') (Game.init id) es g → Conserved es g := by
  intro h
  have hrun : (lostDrawRun.foldlM Game.step (Game.init 7)).map (fun g =>
      (g.seat.turn.asksThrow, (g.bot.player.throwHand g.bot.throwArg).get 17,
        g.seat.hand.count 17)) = some (true, 0, 1) := by decide +kernel
  obtain ⟨g, hg, hvalues⟩ := Option.map_eq_some_iff.mp hrun
  obtain ⟨hturn, hget, hcount⟩ : g.seat.turn.asksThrow = true ∧
      (g.bot.player.throwHand g.bot.throwArg).get 17 = 0 ∧ g.seat.hand.count 17 = 1 := by
    simpa using hvalues
  have hholds := ((h 7 lostDrawRun g (run_iff_foldlM.mpr hg)).throw hturn).get_eq 17
  rw [hcount] at hholds
  exact absurd (hget.symm.trans hholds) (by omega)

end

end MahjongAI
