import MahjongAI.Rules

/-!
# Every Answer is a Step Forward

In a round by the rules the bot never gets stuck and never goes back. Each event that the
server may send is handled and answered as it should be (`Play.Legal`), whatever state the
round has reached; and the step count of the hand, its distance from a complete one, does
not rise from the deal on: throws and kongs keep it, a draw lowers it by one at most, and
each claim that the bot makes lowers it by exactly one.

The invariant joins what the bot knows of its hand (`Game.Inv`) with the record of its
melded triplets, the size of the hand in each turn, and what the last answer promised: the
tile named for a throw costs nothing, the claim that was made pays.

## Main results

* `Play.legal_of_reached`: every lawful event is handled, and answered legally.
* `Play.steps_of_run`: the step count along a round.
-/

open Runs Packed BitSets

namespace MahjongAI

/-! ### Throws -/

/-- `T2` keeps candidates, with another score. -/
theorem exists_of_mem_t2 {Hand remainTiles : Tiles} {stepToHu : ℤ}
    {Candidates : List CandidateThrow} {c : CandidateThrow}
    (hc : c ∈ t2 Hand remainTiles stepToHu Candidates) :
    ∃ c' ∈ Candidates, c.color = c'.color ∧ c.value = c'.value := by
  have hscored := List.mem_of_mem_filter hc
  obtain ⟨c', hc', rfl⟩ := List.mem_map.mp hscored
  exact ⟨c', hc', rfl, rfl⟩

theorem length_t2_le (Hand remainTiles : Tiles) (stepToHu : ℤ) (Candidates : List CandidateThrow) :
    (t2 Hand remainTiles stepToHu Candidates).length ≤ Candidates.length := by
  refine (List.length_filter_le _ _).trans ?_
  rw [List.length_map]

/-- **A throw costs no step**, whatever has been discarded. -/
theorem throw_keeps {k : ℕ} {p : Irb00} {card : MJCard} {H : Multiset Kind}
    (hhand : (p.throwHand card).Holds H) (h4 : ∀ x, H.count x ≤ 4) (hH : H.card = 3 * k + 2)
    (h17 : H.card ≤ 17) (hpos : 1 ≤ handSteps H) :
    ∃ t ∈ H, handSteps (H.erase t) = handSteps H ∧ p.throw card = some (cardOf t) := by
  have ht1 := t1_eq_candidates hhand h4 hH
  have hkeeps : ∀ x ∈ keepers H, x ∈ H ∧ handSteps (H.erase x) = handSteps H := fun x hx =>
    (mem_keepers h4 hH).mp hx
  have hle := length_keepers_le h4 hH
  delta Irb00.throw
  simp only [ht1]
  cases hkeepers : keepers H with
  | nil => exact absurd hkeepers (exists_keeper h4 hH hpos)
  | cons x l =>
      rw [hkeepers] at hkeeps hle
      cases l with
      | nil =>
          obtain ⟨hx, hsame⟩ := hkeeps x (by simp)
          exact ⟨x, hx, hsame, rfl⟩
      | cons y l =>
          simp only [List.map_cons]
          generalize hkept : t2 _ _ _ (candidateOf _ x :: candidateOf _ y :: _) = kept
          have hlength := length_t2_le (p.throwHand card) (p.remainTiles card)
            (stepToHu1617 (p.throwHand card))
            ((x :: y :: l).map (candidateOf (stepToHu1617 (p.throwHand card))))
          rw [List.map_cons, List.map_cons, hkept] at hlength
          cases kept with
          | nil => exact absurd hkept (t2_ne_nil _ _ _ (List.cons_ne_nil _ _))
          | cons c rest =>
              have hc : c ∈ t2 (p.throwHand card) (p.remainTiles card)
                  (stepToHu1617 (p.throwHand card))
                  ((x :: y :: l).map (candidateOf (stepToHu1617 (p.throwHand card)))) := by
                rw [List.map_cons, List.map_cons, hkept]
                exact List.mem_cons_self
              obtain ⟨c', hc', hcolor, hvalue⟩ := exists_of_mem_t2 hc
              obtain ⟨t, ht, rfl⟩ := List.mem_map.mp hc'
              obtain ⟨hmem, hsame⟩ := hkeeps t ht
              have hshort : (c :: rest).length < 20 := by
                simp only [List.length_cons, List.length_map] at hlength hle ⊢
                omega
              refine ⟨t, hmem, hsame, ?_⟩
              simp only [hshort, if_true, hcolor, hvalue]
              rfl

/-! ### Run claims -/

/-- `EatOrNot` names the place of a run that pays, or no run does. -/
theorem eatOrNot_cases {k : ℕ} {p : Irb00} {H : Multiset Kind} (hhand : p.Hand.Counts H)
    (hH : H.card = 3 * k + 1) {x : Kind} (hx : x.val < 27)
    (hoffer : ∃ d S, EatOption x d S ∧ S ≤ H) :
    (∃ i, EatPays H x i ∧ p.eatOrNot (cardOf x) = (true, i)) ∨
      ((∀ d, ¬EatPays H x d) ∧ p.eatOrNot (cardOf x) = (false, -1)) := by
  classical
  rw [eatOrNot_eq hhand hH hx hoffer]
  split_ifs with h1 h2 h0
  · exact Or.inl ⟨1, h1, rfl⟩
  · exact Or.inl ⟨2, h2, rfl⟩
  · exact Or.inl ⟨0, h0, rfl⟩
  · refine Or.inr ⟨fun d hd => ?_, rfl⟩
    obtain ⟨S, hoption, -⟩ := id hd
    rcases hoption.place with ⟨rfl, -⟩ | ⟨rfl, -⟩ | ⟨rfl, -⟩
    · exact h2 hd
    · exact h1 hd
    · exact h0 hd

/-- The tiles of a run beside the claimed one, as the answer names them. -/
theorem erase_run {x y : Kind} {S : Multiset Kind} (hrun : x ::ₘ S = {y, y + 1, y + 2}) :
    (([y, y + 1, y + 2].erase x : List Kind) : Multiset Kind) = S := by
  have hcoe : (([y, y + 1, y + 2] : List Kind) : Multiset Kind) = {y, y + 1, y + 2} := rfl
  rw [← Multiset.coe_erase, hcoe, ← hrun, Multiset.erase_cons_head]

/-! ### The size of a hand -/

/-- A hand that is not complete is at least one step away. -/
theorem one_le_handSteps {k : ℕ} {H : Multiset Kind} (h4 : ∀ x, H.count x ≤ 4)
    (hH : H.card = 3 * k + 2) (hnot : ¬Complete H) : 1 ≤ handSteps H := by
  have hzero : handSteps H ≠ 0 := fun hsteps =>
    hnot ⟨k, (completeHand_iff h4 hH).mpr hsteps⟩
  have hdist := handSteps_full h4 hH
  omega

/-! ### The invariant -/

/-- The size of the hand in each turn, beside a multiple of three: with the tile that is to
be thrown it is one more. -/
def Turn.extra : Turn → ℕ
  | .drawn _ | .claimed | .asked _ => 2
  | _ => 1

theorem Turn.extra_of_asksThrow {t : Turn} (h : t.asksThrow = true) : t.extra = 2 := by
  cases t with
  | drawn | claimed => rfl
  | idle | kong | asked => exact absurd h (by simp [Turn.asksThrow])

/-- A kong. -/
def Claim.isKong : Claim → Bool
  | .gon _ | .ponGon _ | .anGon _ => true
  | _ => false

/-- How many tiles a claim takes from the hand. -/
def Claim.size : Claim → ℕ
  | .eat _ _ | .pon _ => 2
  | .gon _ => 3
  | .ponGon _ => 1
  | .anGon _ => 4
  | .nothing => 0

/-- A claim that was made pays, and a kong was declared on a draw. -/
def Ready (s : Seat) (c : Claim) : Prop :=
  Play.Pays s c ∧ (c.isKong = true → ∃ x, s.turn = .drawn x)

namespace Play

/-- What holds in every state of a lawful round: the bot knows its hand and its melded
triplets, the hand has the size that the turn asks for, a tile named for a throw costs
nothing, and a claim that was made pays. -/
structure Inv (s : Play) : Prop where
  game : s.game.Inv
  pon : BitSet meldBit s.bot.player.pon fun x => x ∈ s.seat.pons
  size : ∃ k ≤ 5, s.seat.hand.card = 3 * k + s.seat.turn.extra
  asked : ∀ tile, s.seat.turn = .asked tile → ∃ x, tileKind tile = some x ∧
    x ∈ s.seat.hand ∧ handSteps (s.seat.hand.erase x) = handSteps s.seat.hand
  answer : ∀ c, s.answer = some c → c = .nothing ∨ Ready s.seat c

namespace Inv

variable {s : Play}

/-- No kind has more than four copies. -/
theorem count_le (h : s.Inv) (x : Kind) : s.seat.hand.count x ≤ 4 := by
  have : s.seat.hand.count x + 3 * s.seat.pons.count x ≤ 4 := h.game.copies x
  omega

/-- The size of the hand before a throw. -/
theorem card_throw (h : s.Inv) (hturn : s.seat.turn.extra = 2) :
    ∃ k, s.seat.hand.card = 3 * k + 2 ∧ s.seat.hand.card ≤ 17 := by
  obtain ⟨k, hk, hcard⟩ := h.size
  exact ⟨k, by omega, by omega⟩

/-- The size of the hand out of turn. -/
theorem card_idle (h : s.Inv) (hturn : s.seat.turn.extra = 1) :
    ∃ k ≤ 5, s.seat.hand.card = 3 * k + 1 := by
  obtain ⟨k, hk, hcard⟩ := h.size
  exact ⟨k, hk, by omega⟩

/-- The mask of melded triplets has the bits of the melded triplets. -/
theorem hasPon_iff (h : s.Inv) (x : Kind) : s.bot.player.HasPon x ↔ x ∈ s.seat.pons := by
  rw [← h.pon.getLsbD_iff meldBit_injective x, Irb00.HasPon, cardTo34_cardOf, BitVec.and_twoPow]
  have hne : BitVec.twoPow 64 (meldBit x) ≠ 0#64 := by
    intro hzero
    have hbit := congrArg (fun v => v.getLsbD (meldBit x)) hzero
    have := meldBit_lt x
    simp only [BitVec.getLsbD_twoPow, BitVec.getLsbD_zero] at hbit
    simp [show meldBit x < 64 by omega] at hbit
  split
  · rename_i hset
    exact ⟨fun _ => hset, fun _ => hne⟩
  · rename_i hset
    exact ⟨fun hzero => absurd rfl hzero, fun hbit => absurd hbit hset⟩

/-- **The answer to a throw request** names a tile that costs no step. -/
theorem throw_answer [Tokenizer] (h : s.Inv) (hturn : s.seat.turn.asksThrow = true)
    (hnot : ¬Complete s.seat.hand) :
    ∃ bot out, s.bot.throw = some (bot, out) ∧ s.Legal out .throw := by
  obtain ⟨k, hcard, h17⟩ := h.card_throw (Turn.extra_of_asksThrow hturn)
  obtain ⟨x, hx, hkeeps, hthrow⟩ := throw_keeps (h.game.holds_throwHand hturn) h.count_le hcard
    h17 (one_le_handSteps h.count_le hcard hnot)
  obtain ⟨tile, htile, hkind, -⟩ := exists_text x
  simp only [Play.game] at hthrow
  obtain ⟨bot, hanswer⟩ : ∃ bot, s.bot.throw = some (bot, [.throwTile tile]) := by
    simp only [Bot.throw, hthrow, htile]
    exact ⟨_, rfl⟩
  exact ⟨bot, _, hanswer, tile, x, rfl, hkind, hx, hkeeps⟩

end Inv

/-! ### Answers to commands -/

/-- The claim of a command other than a run claim. -/
theorem read_of_kind [Tokenizer] {c : CommandType} (hc : c ≠ .eat) {tile : List Char} {x : Kind}
    (hkind : tileKind tile = some x) :
    Claim.read c.code tile = some (match c with
      | .pon => .pon x
      | .gon => .gon x
      | .ponGon => .ponGon x
      | .anGon => .anGon x
      | _ => .nothing) := by
  cases c <;> first | exact absurd rfl hc | simp [Claim.read, CommandType.code, hkind]

/-- The claim of an answer that is no run claim. -/
theorem claimOf_commandText [Tokenizer] {b : Bot} {c : CommandType} (hc : c ≠ .eat)
    {tile : List Char}
    (hplain : tile.flatMap Json.writeChar = tile) :
    claimOf b [.sendCommand (commandText c tile)] = Claim.read c.code tile := by
  have hcode : (c.code : ℤ) ≠ CommandType.eat.code := by
    cases c <;> first | decide | exact absurd rfl hc
  simp only [claimOf, readCommand_commandText c hplain, Option.bind_some, if_neg hcode]

/-- The claim of an answer that names a run. -/
theorem claimOf_eat [Tokenizer] {b : Bot} {x y : Kind} {tile : List Char}
    (hplain : tile.flatMap Json.writeChar = tile) (hkind : tileKind tile = some y)
    (hthrown : b.throwTile = cardOf x) :
    claimOf b [.sendCommand (commandText .eat tile)] =
      some (.eat ([y, y + 1, y + 2].erase x) x) := by
  simp only [claimOf, readCommand_commandText .eat hplain, Option.bind_some, if_true, hkind,
    hthrown, kindOf_cardOf]

variable {s : Play}

namespace Inv

/-- A concealed kong pays when the four tiles are there and it keeps the step count. -/
theorem pays_anGon_iff (h : s.Inv) {d : Kind} (hturn : s.seat.turn = .drawn d) (t : Kind) :
    Pays s.seat (.anGon t) ↔ AnGonKeeps s.seat.hand t := by
  have h4 := h.count_le t
  simp only [Pays, Seat.Allows, Claim.taken, Claim.isMeld, AnGonKeeps, hturn, Turn.mayKong,
    Multiset.coe_replicate, Bool.false_eq_true, if_false, sub_zero, and_true]
  rw [← Multiset.le_count_iff_replicate_le]
  exact and_congr_left fun _ => ⟨fun hfour => by omega, fun hfour => by omega⟩

/-- The kong of a melded triplet pays when its fourth tile is there and it keeps the step
count. -/
theorem pays_ponGon_iff (h : s.Inv) {d : Kind} (hturn : s.seat.turn = .drawn d) (t : Kind) :
    Pays s.seat (.ponGon t) ↔ PonGonKeeps s.bot.player s.seat.hand t := by
  have hcopies : s.seat.hand.count t + 3 * s.seat.pons.count t ≤ 4 := h.game.copies t
  have htaken : ((List.replicate 1 t : List Kind) : Multiset Kind) = {t} := rfl
  simp only [Pays, Seat.Allows, Claim.taken, Claim.isMeld, PonGonKeeps, h.hasPon_iff, hturn,
    Turn.mayKong, htaken, Multiset.singleton_le, Multiset.sub_singleton, Bool.false_eq_true,
    if_false, sub_zero, true_and]
  constructor
  · rintro ⟨⟨hmem, hpon⟩, hkeeps⟩
    have := Multiset.count_pos.mpr hmem
    have := Multiset.count_pos.mpr hpon
    exact ⟨hpon, by omega, hkeeps⟩
  · rintro ⟨hpon, hone, hkeeps⟩
    exact ⟨⟨Multiset.count_pos.mp (by omega), hpon⟩, hkeeps⟩

/-- What the bot knows after a draw. -/
theorem hand_drawn (h : s.Inv) {d : Kind} (hturn : s.seat.turn = .drawn d) :
    d ∈ s.seat.hand ∧ s.bot.player.Hand.Counts (s.seat.hand.erase d) ∧
      s.bot.drawTile = cardOf d := by
  have hinv := h.game.hand
  simp only [Game.HandInv, Play.game, hturn] at hinv
  exact ⟨hinv.1, hinv.2.1, hinv.2.2.1⟩

/-- With the melded triplets no kind has more than four copies. -/
theorem copies_le (h : s.Inv) (y : Kind) :
    s.seat.hand.count y + (if s.bot.player.HasPon y then 3 else 0) ≤ 4 := by
  have hy : s.seat.hand.count y + 3 * s.seat.pons.count y ≤ 4 := h.game.copies y
  split
  · rename_i hpon
    have := Multiset.count_pos.mpr ((h.hasPon_iff y).mp hpon)
    omega
  · omega

/-- On a draw there is a tile to throw. -/
theorem exists_throw (h : s.Inv) {d : Kind} (hturn : s.seat.turn = .drawn d)
    (hnot : ¬Complete s.seat.hand) : ∃ x, s.bot.player.throw (cardOf d) = some (cardOf x) := by
  obtain ⟨hmem, hcounts, -⟩ := h.hand_drawn hturn
  obtain ⟨k, hcard, h17⟩ := h.card_throw (by rw [hturn]; rfl)
  have hcons : d ::ₘ s.seat.hand.erase d = s.seat.hand := Multiset.cons_erase hmem
  have hhand : (s.bot.player.throwHand (drawnCard (some d))).Holds
      (combined (some d) (s.seat.hand.erase d)) :=
    holds_combined hcounts fun y => by
      have := h.count_le y
      rwa [combined, Option.elim_some, hcons]
  rw [combined, Option.elim_some, hcons] at hhand
  obtain ⟨x, -, -, hthrow⟩ := throw_keeps hhand h.count_le hcard h17
    (one_le_handSteps h.count_le hcard hnot)
  exact ⟨x, hthrow⟩

/-- The answer of `WannaHuGon` to a question without the win. -/
theorem wanna_cases (h : s.Inv) {d : Kind} (hturn : s.seat.turn = .drawn d) :
    (∃ t, AnGonKeeps s.seat.hand t ∧
        s.bot.player.wannaHuGon false true (cardOf d) = some (.anGon, cardOf t)) ∨
      (∃ t, PonGonKeeps s.bot.player s.seat.hand t ∧
        s.bot.player.wannaHuGon false true (cardOf d) = some (.ponGon, cardOf t)) ∨
      ((∀ t, ¬AnGonKeeps s.seat.hand t ∧ ¬PonGonKeeps s.bot.player s.seat.hand t) ∧
        s.bot.player.wannaHuGon false true (cardOf d) =
          (s.bot.player.throw (cardOf d)).map fun c => (.none, c)) := by
  obtain ⟨hmem, hcounts, -⟩ := h.hand_drawn hturn
  obtain ⟨k, hcard, -⟩ := h.card_throw (by rw [hturn]; rfl)
  have hcons : d ::ₘ s.seat.hand.erase d = s.seat.hand := Multiset.cons_erase hmem
  have hcases := wannaHuGon_cases (p := s.bot.player) (x := d) (H := s.seat.hand.erase d)
    (by rw [hcons]; exact h.copies_le) hcounts (k := k) (by rw [hcons, hcard])
  rwa [hcons] at hcases

end Inv

/-- `WannaHuGon` answers a question about an own draw with `c` and a tile of the kind `x`, and
that is as it should be. -/
def Decides [Tokenizer] (s : Play) (command : ℕ) (c : CommandType) (x : Kind) : Prop :=
  c ≠ .eat ∧
    s.bot.player.wannaHuGon (Bot.hasBit command .zimo)
      (Bot.hasBit command .anGon || Bot.hasBit command .ponGon) s.bot.drawTile =
        some (c, cardOf x) ∧
      ∃ claim, (∀ tile, tileKind tile = some x → Claim.read c.code tile = some claim) ∧
        s.Answers command c claim

/-- The answer goes out with the text of its tile. -/
theorem Decides.answer [Tokenizer] {command : ℕ} {c : CommandType} {x : Kind}
    (h : s.Decides command c x) {tiles : List (ℤ × List (List Char))} (idx : ℤ)
    (hown : Bot.isOwnCommand command = true) (htiles : Bot.gonTileExists tiles command = true) :
    ∃ bot out, s.bot.command tiles command = some (bot, out) ∧
      s.Legal out (.command tiles command idx) := by
  obtain ⟨hc, hwanna, claim, hread, hanswers⟩ := h
  obtain ⟨tile, htile, hkind, hplain⟩ := exists_text x
  refine ⟨s.bot, [.sendCommand (commandText c tile)], ?_, c, tile, claim, rfl, ?_, hanswers⟩
  · simp only [Bot.command, hown, htiles, if_true, hwanna, htile]
  · rw [claimOf_commandText hc hplain, hread tile hkind]

/-- A kong on a draw is an answer when it is offered and pays. -/
theorem Answers.kong {command : ℕ} {c : CommandType} {claim : Claim}
    (hown : Bot.isOwnCommand command = true) (hzimo : Bot.hasBit command .zimo = false)
    (hbit : Bot.hasBit command c = true) (hoffered : s.Offered command claim)
    (hpays : Pays s.seat claim) (hgon : ∀ x, claim ≠ .gon x) (hc : c ≠ .none) :
    s.Answers command c claim where
  offered := Or.inr hbit
  zimo := by simp [hzimo]
  hu := by simp [hown]
  pays := Or.inr ⟨hoffered, hpays⟩
  gon := hgon
  passes hnone := absurd hnone hc

namespace Inv

variable {command : ℕ} {tiles : List (ℤ × List (List Char))} {d : Kind}

/-- The win is taken. -/
theorem decides_zimo [Tokenizer] (h : s.Inv) (hturn : s.seat.turn = .drawn d)
    (hown : Bot.isOwnCommand command = true) (hzimo : Bot.hasBit command .zimo = true) :
    s.Decides command .zimo d := by
  refine ⟨by decide, by rw [hzimo, (h.hand_drawn hturn).2.2]; rfl, .nothing,
    fun tile hkind => read_of_kind (by decide) hkind, ?_⟩
  exact
    { offered := Or.inr hzimo
      zimo := fun _ => rfl
      hu := by simp [hown]
      pays := Or.inl rfl
      gon := fun x => by simp
      passes := fun hnone => by simp at hnone }

/-- Without the win a kong that pays is declared, and a pass says that there is none. -/
theorem exists_decides [Tokenizer] (h : s.Inv) (hturn : s.seat.turn = .drawn d)
    (hown : Bot.isOwnCommand command = true) (hoffer : s.DrawOffer tiles command)
    (hzimo : Bot.hasBit command .zimo = false) : ∃ c x, s.Decides command c x := by
  have hkong : (Bot.hasBit command .anGon || Bot.hasBit command .ponGon) = true := by
    simpa [Bot.isOwnCommand, hzimo] using hown
  have hnot : ¬Complete s.seat.hand := fun hcomplete => by
    rw [hoffer.zimo.mpr hcomplete] at hzimo
    exact absurd hzimo (by simp)
  have hdraw := (h.hand_drawn hturn).2.2
  rcases h.wanna_cases hturn with ⟨t, hkeeps, hwanna⟩ | ⟨t, hkeeps, hwanna⟩ | ⟨hnone, hwanna⟩
  · have hbit := hoffer.anGon.mpr ⟨t, hkeeps.1⟩
    exact ⟨.anGon, t, by decide, by rw [hzimo, hkong, hdraw, hwanna], .anGon t,
      fun tile hkind => read_of_kind (by decide) hkind,
      Answers.kong hown hzimo hbit hbit ((h.pays_anGon_iff hturn t).mpr hkeeps)
        (fun x => by simp) (by decide)⟩
  · have hone : 0 < s.seat.hand.count t := by
      have := hkeeps.2.1
      omega
    have hbit := hoffer.ponGon.mpr
      ⟨t, (h.hasPon_iff t).mp hkeeps.1, Multiset.count_pos.mp hone⟩
    exact ⟨.ponGon, t, by decide, by rw [hzimo, hkong, hdraw, hwanna], .ponGon t,
      fun tile hkind => read_of_kind (by decide) hkind,
      Answers.kong hown hzimo hbit hbit ((h.pays_ponGon_iff hturn t).mpr hkeeps)
        (fun x => by simp) (by decide)⟩
  · obtain ⟨x, hthrow⟩ := h.exists_throw hturn hnot
    rw [hthrow, Option.map_some] at hwanna
    refine ⟨.none, x, by decide, by rw [hzimo, hkong, hdraw, hwanna], .nothing,
      fun tile hkind => read_of_kind (by decide) hkind, ?_⟩
    refine ⟨Or.inl rfl, by simp [hzimo], by simp [hown], Or.inl rfl, fun y => by simp,
      fun _ claim' hoffered hpays => ?_⟩
    cases claim' with
    | anGon y => exact absurd ((h.pays_anGon_iff hturn y).mp hpays) (hnone y).1
    | ponGon y => exact absurd ((h.pays_ponGon_iff hturn y).mp hpays) (hnone y).2
    | eat S y => exact absurd (hpays.1.2.symm.trans hturn) (by simp)
    | pon y => exact absurd (hpays.1.2.1.symm.trans hturn) (by simp)
    | gon y => exact ⟨y, rfl⟩
    | nothing => exact absurd hoffered (by simp [Offered])

/-- **The answer to a question about an own draw.** -/
theorem draw_answer [Tokenizer] (h : s.Inv) (idx : ℤ) (hown : Bot.isOwnCommand command = true)
    (hoffer : s.DrawOffer tiles command) :
    ∃ bot out, s.bot.command tiles command = some (bot, out) ∧
      s.Legal out (.command tiles command idx) := by
  obtain ⟨d, hturn⟩ := hoffer.drawn
  cases hzimo : Bot.hasBit command .zimo with
  | true => exact (h.decides_zimo hturn hown hzimo).answer idx hown hoffer.tiles
  | false =>
      obtain ⟨c, x, hdecides⟩ := h.exists_decides hturn hown hoffer hzimo
      exact hdecides.answer idx hown hoffer.tiles

/-- A triplet claim pays exactly when it lowers the step count. -/
theorem pays_pon_iff (h : s.Inv) {x : Kind} (hidle : s.seat.turn = .idle)
    (hroom : s.seat.hand.count x + 3 * s.seat.pons.count x < 4) (htwo : 2 ≤ s.seat.hand.count x) :
    Pays s.seat (.pon x) ↔ handSteps (s.seat.hand - {x, x}) < handSteps s.seat.hand := by
  obtain ⟨k, -, hcard⟩ := h.card_idle (by rw [hidle]; rfl)
  have hle : ({x, x} : Multiset Kind) ≤ s.seat.hand :=
    Multiset.le_count_iff_replicate_le.mp htwo
  have hlaw := handSteps_sub_pair (c := x) h.count_le hcard hle (Or.inl ⟨x, rfl⟩)
  have htaken : ((List.replicate 2 x : List Kind) : Multiset Kind) = {x, x} := rfl
  simp only [Pays, Seat.Allows, Claim.taken, Claim.isMeld, htaken, hle, hidle, hroom, and_self,
    true_and, if_true]
  omega

/-- A run claim pays exactly when it is a step of `EatOrNot`. -/
theorem pays_eat_iff {x : Kind} {d : ℤ} {S : List Kind} (hidle : s.seat.turn = .idle)
    (hoption : EatOption x d S) :
    Pays s.seat (.eat S x) ↔ EatStep s.seat.hand x d S := by
  simp only [Pays, Seat.Allows, Claim.taken, Claim.isMeld, EatStep, hidle, hoption, and_true,
    true_and, if_true]

end Inv

/-- A question about the thrown tile `x`. -/
structure Thrown (s : Play) (command : ℕ) (x : Kind) : Prop where
  own : Bot.isOwnCommand command = false
  idle : s.seat.turn = .idle
  tile : s.bot.throwTile = cardOf x
  room : s.seat.hand.count x + 3 * s.seat.pons.count x < 4
  eat : Bot.hasBit command .eat = true →
    x.val < 27 ∧ ∃ d S, EatOption x d S ∧ S ≤ s.seat.hand
  pon : Bot.hasBit command .pon = true → 2 ≤ s.seat.hand.count x

namespace Thrown

variable {command : ℕ} {tiles : List (ℤ × List (List Char))} {x : Kind}

theorem zimo (ht : s.Thrown command x) : Bot.hasBit command .zimo = false := by
  have hown := ht.own
  simp only [Bot.isOwnCommand, Bool.or_eq_false_iff] at hown
  exact hown.1.1

/-- What the bot knows out of turn. -/
theorem counts (ht : s.Thrown command x) (h : s.Inv) :
    s.bot.player.Hand.Counts s.seat.hand :=
  h.game.hand.counts fun y hy => by
    rw [show s.game.seat.turn = .idle from ht.idle] at hy
    exact absurd hy (by simp)

/-- No kong is declared out of turn, and none of a thrown tile. -/
theorem not_kong (ht : s.Thrown command x) {claim : Claim} (hoffered : s.Offered command claim)
    (hkong : claim.isKong = true) : ∃ y, claim = .gon y := by
  have hown := ht.own
  simp only [Bot.isOwnCommand, Bool.or_eq_false_iff] at hown
  cases claim with
  | gon y => exact ⟨y, rfl⟩
  | anGon y => exact absurd hoffered (by simp [Offered, hown.1.2])
  | ponGon y => exact absurd hoffered (by simp [Offered, hown.2])
  | eat | pon | nothing => exact absurd hkong (by simp [Claim.isKong])

/-- An answer that names the thrown tile. -/
theorem answer [Tokenizer] (ht : s.Thrown command x) (idx : ℤ) {claim : Claim}
    (c : CommandType) (hc : c ≠ .eat)
    (hwanna : s.bot.player.wannaHGPE (Bot.hasBit command .hu) (Bot.hasBit command .pon)
      (Bot.hasBit command .eat) (cardOf x) = (c, s.bot.player))
    (hread : ∀ tile, tileKind tile = some x → Claim.read c.code tile = some claim)
    (hanswers : s.Answers command c claim) :
    ∃ bot out, s.bot.command tiles command = some (bot, out) ∧
      s.Legal out (.command tiles command idx) := by
  obtain ⟨tile, htile, hkind, hplain⟩ := exists_text x
  have hanswer : s.bot.command tiles command =
      some ({ s.bot with player := s.bot.player }, [.sendCommand (commandText c tile)]) := by
    simp only [Bot.command, ht.own, ht.tile, hwanna, if_neg hc, htile, Bool.false_eq_true,
      if_false]
  exact ⟨_, _, hanswer, c, tile, claim, rfl,
    by rw [claimOf_commandText hc hplain, hread tile hkind], hanswers⟩

/-- The win is taken. -/
theorem answer_hu [Tokenizer] (ht : s.Thrown command x) (idx : ℤ)
    (hhu : Bot.hasBit command .hu = true) :
    ∃ bot out, s.bot.command tiles command = some (bot, out) ∧
      s.Legal out (.command tiles command idx) := by
  refine ht.answer idx .hu (by decide)
    (by simp only [Irb00.wannaHGPE, hhu, if_true])
    (fun tile hkind => read_of_kind (by decide) hkind) ?_
  exact
    { offered := Or.inr hhu
      zimo := by simp [ht.zimo]
      hu := fun _ _ => rfl
      pays := Or.inl rfl
      gon := fun y => by simp
      passes := fun hnone => by simp at hnone }

/-- Either `EatOrNot` names the place of a run that pays, or no run that is offered does. -/
theorem eat_cases (ht : s.Thrown command x) (h : s.Inv) :
    (∃ i, Bot.hasBit command .eat = true ∧ EatPays s.seat.hand x i ∧
        s.bot.player.eatOrNot (cardOf x) = (true, i)) ∨
      ((Bot.hasBit command .eat = true → ∀ d, ¬EatPays s.seat.hand x d) ∧
        ¬(Bot.hasBit command .eat = true ∧ (s.bot.player.eatOrNot (cardOf x)).1 = true)) := by
  obtain ⟨k, -, hcard⟩ := h.card_idle (by rw [ht.idle]; rfl)
  by_cases hbit : Bot.hasBit command .eat = true
  · obtain ⟨hx, hrun⟩ := ht.eat hbit
    rcases eatOrNot_cases (ht.counts h) hcard hx hrun with ⟨i, hpays, hi⟩ | ⟨hnone, hfalse⟩
    · exact Or.inl ⟨i, hbit, hpays, hi⟩
    · exact Or.inr ⟨fun _ => hnone, by simp [hfalse]⟩
  · exact Or.inr ⟨fun hbit' => absurd hbit' hbit, fun hboth => hbit hboth.1⟩

/-- A run that pays is claimed. -/
theorem answer_eat [Tokenizer] (ht : s.Thrown command x) (h : s.Inv) (idx : ℤ) {i : ℤ}
    (hhu : Bot.hasBit command .hu = false) (hbit : Bot.hasBit command .eat = true)
    (hpays : EatPays s.seat.hand x i) (hi : s.bot.player.eatOrNot (cardOf x) = (true, i)) :
    ∃ bot out, s.bot.command tiles command = some (bot, out) ∧
      s.Legal out (.command tiles command idx) := by
  obtain ⟨k, -, hcard⟩ := h.card_idle (by rw [ht.idle]; rfl)
  obtain ⟨S, hstep⟩ := (eatPays_iff h.count_le hcard).mp hpays
  obtain ⟨y, a, b, hy, -, hrun, hplace, hcolor, hvalue⟩ := hstep.1.exists_run
  obtain ⟨text, htext, hanswer⟩ : ∃ text, (cardOf y).toString = some text ∧
      s.bot.command tiles command =
        some ({ s.bot with player := { s.bot.player with pickToEat := i } },
          [.sendCommand (commandText .eat text)]) :=
    command_eat ht.tile ht.own hhu hbit hi hy.1 hplace hcolor hvalue
  obtain ⟨text', htext', hkind', hplain'⟩ := exists_text y
  obtain rfl : text = text' := Option.some.inj (htext.symm.trans htext')
  have hS := erase_run hrun
  have hoption : EatOption x i ([y, y + 1, y + 2].erase x : List Kind) := by
    rw [hS]
    exact hstep.1
  refine ⟨_, _, hanswer, .eat, text, _, rfl, claimOf_eat hplain' hkind' ht.tile, ?_⟩
  refine ⟨Or.inr hbit, by simp [ht.zimo], by simp [hhu],
    Or.inr ⟨⟨hbit, ht.tile, i, hoption⟩, ?_⟩, fun y => by simp, fun hnone => by simp at hnone⟩
  rw [Inv.pays_eat_iff ht.idle hoption, hS]
  exact hstep

/-- `PonOrNot` agrees to a triplet that pays, and to no other. -/
theorem ponOrNot_iff (ht : s.Thrown command x) (h : s.Inv)
    (hbit : Bot.hasBit command .pon = true) :
    s.bot.player.ponOrNot (cardOf x) = true ↔ Pays s.seat (.pon x) := by
  obtain ⟨k, -, hcard⟩ := h.card_idle (by rw [ht.idle]; rfl)
  have htwo := ht.pon hbit
  rw [ponOrNot_eq (ht.counts h) hcard htwo, decide_eq_true_iff,
    h.pays_pon_iff ht.idle ht.room htwo]

/-- A triplet that pays is claimed. -/
theorem answer_pon [Tokenizer] (ht : s.Thrown command x) (h : s.Inv) (idx : ℤ)
    (hhu : Bot.hasBit command .hu = false) (hbit : Bot.hasBit command .pon = true)
    (hfalse : ¬(Bot.hasBit command .eat = true ∧
      (s.bot.player.eatOrNot (cardOf x)).1 = true)) (hpays : Pays s.seat (.pon x)) :
    ∃ bot out, s.bot.command tiles command = some (bot, out) ∧
      s.Legal out (.command tiles command idx) := by
  have htrue := (ht.ponOrNot_iff h hbit).mpr hpays
  refine ht.answer idx .pon (by decide)
    (by simp only [Irb00.wannaHGPE, hhu, hfalse, hbit, htrue, Bool.false_eq_true, if_false,
      and_self, if_true]) (fun tile hkind => read_of_kind (by decide) hkind) ?_
  exact ⟨Or.inr hbit, by simp [ht.zimo], by simp [hhu], Or.inr ⟨⟨hbit, ht.tile⟩, hpays⟩,
    fun y => by simp, fun hnone => by simp at hnone⟩

/-- Where neither a run nor a triplet pays the bot passes. -/
theorem answer_none [Tokenizer] (ht : s.Thrown command x) (h : s.Inv) (idx : ℤ)
    (hhu : Bot.hasBit command .hu = false)
    (hnone : Bot.hasBit command .eat = true → ∀ d, ¬EatPays s.seat.hand x d)
    (hfalse : ¬(Bot.hasBit command .eat = true ∧
      (s.bot.player.eatOrNot (cardOf x)).1 = true))
    (hpon : ¬(Bot.hasBit command .pon = true ∧ Pays s.seat (.pon x))) :
    ∃ bot out, s.bot.command tiles command = some (bot, out) ∧
      s.Legal out (.command tiles command idx) := by
  obtain ⟨k, -, hcard⟩ := h.card_idle (by rw [ht.idle]; rfl)
  have hno : ¬(Bot.hasBit command .pon = true ∧ s.bot.player.ponOrNot (cardOf x) = true) :=
    fun hboth => hpon ⟨hboth.1, (ht.ponOrNot_iff h hboth.1).mp hboth.2⟩
  refine ht.answer idx .none (by decide)
    (by simp only [Irb00.wannaHGPE, hhu, hfalse, hno, Bool.false_eq_true, if_false])
    (fun tile hkind => read_of_kind (by decide) hkind) ?_
  refine ⟨Or.inl rfl, by simp [ht.zimo], by simp [hhu], Or.inl rfl, fun y => by simp,
    fun _ claim' hoffered hclaim => ?_⟩
  cases claim' with
  | eat S y =>
      obtain ⟨hbit, hy, d, hoption⟩ := hoffered
      obtain rfl := cardOf_inj.mp (hy.symm.trans ht.tile)
      exact absurd ((eatPays_iff h.count_le hcard).mpr
        ⟨S, (Inv.pays_eat_iff ht.idle hoption).mp hclaim⟩) (hnone hbit d)
  | pon y =>
      obtain ⟨hbit, hy⟩ := hoffered
      obtain rfl := cardOf_inj.mp (hy.symm.trans ht.tile)
      exact absurd ⟨hbit, hclaim⟩ hpon
  | gon | anGon | ponGon => exact ht.not_kong hoffered rfl
  | nothing => exact absurd hoffered (by simp [Offered])

end Thrown

/-- **The answer to a question about a thrown tile.** -/
theorem Inv.claim_answer [Tokenizer] (h : s.Inv) {tiles : List (ℤ × List (List Char))}
    {command : ℕ} (idx : ℤ) (hown : Bot.isOwnCommand command = false)
    (hoffer : s.ClaimOffer command) :
    ∃ bot out, s.bot.command tiles command = some (bot, out) ∧
      s.Legal out (.command tiles command idx) := by
  obtain ⟨x, hthrown, hroom, heat, hpon⟩ := hoffer.thrown
  have ht : s.Thrown command x := ⟨hown, hoffer.idle, hthrown, hroom, heat, hpon⟩
  cases hhu : Bot.hasBit command .hu with
  | true => exact ht.answer_hu idx hhu
  | false =>
      rcases ht.eat_cases h with ⟨i, hbit, hpays, hi⟩ | ⟨hnone, hfalse⟩
      · exact ht.answer_eat h idx hhu hbit hpays hi
      · by_cases hpays : Bot.hasBit command .pon = true ∧ Pays s.seat (.pon x)
        · exact ht.answer_pon h idx hhu hpays.1 hfalse hpays.2
        · exact ht.answer_none h idx hhu hnone hfalse hpays

/-! ### The steps of a round -/

variable {s' : Play} {e : ServerEvent}

theorem step_eq_some [Tokenizer] {out : List Emit} (h : s.step e = some (s', out)) :
    s.bot.handle e = some (s'.bot, out) ∧
      s.seat.next s.bot.player.id out e = some s'.seat ∧ s'.answer = s.answerAfter out e := by
  rw [step] at h
  split at h
  · exact absurd h (by simp)
  · rename_i bot out' hhandle
    obtain ⟨seat, hseat, heq⟩ := Option.map_eq_some_iff.mp h
    obtain ⟨rfl, rfl⟩ := Prod.mk.inj heq
    exact ⟨hhandle, hseat, rfl⟩

/-- A step of a round is a step of the game. -/
theorem game_step [Tokenizer] {out : List Emit} (h : s.step e = some (s', out)) :
    s.game.step e = some s'.game := by
  obtain ⟨hhandle, hseat, -⟩ := step_eq_some h
  simp only [Game.step, game, hhandle, hseat]
  rfl

/-- What a lawful event does to the seat. -/
def Moves [Tokenizer] (s : Play) (seat : Seat) : ServerEvent → Prop
  | .dealTile _ => ∃ ks : List Kind, (∃ k ≤ 5, ks.length = 3 * k + 1) ∧ seat = ⟨ks, 0, .idle⟩
  | .draw _ => ∃ x, s.seat.turn.extra = 1 ∧
      seat = { s.seat with hand := x ::ₘ s.seat.hand, turn := .drawn x }
  | .throw => ∃ tile, s.seat.turn.extra = 2 ∧ seat = { s.seat with turn := .asked tile } ∧
      ∃ x, tileKind tile = some x ∧ x ∈ s.seat.hand ∧
        handSteps (s.seat.hand.erase x) = handSteps s.seat.hand
  | .broadcastThrow _ _ => seat = s.seat ∨ ∃ x ∈ s.seat.hand, s.seat.turn.extra = 2 ∧
      handSteps (s.seat.hand.erase x) = handSteps s.seat.hand ∧
        seat = { s.seat with hand := s.seat.hand.erase x, turn := .idle }
  | .success command tile => ∃ c, Claim.read command tile = some c ∧ seat = s.seat.succeed c ∧
      (c = .nothing ∨ Ready s.seat c)
  | _ => seat = s.seat

/-- **What a step does to the seat.** -/
theorem Inv.moves [Tokenizer] (h : s.Inv) (hstep : Follows s e s') : s.Moves s'.seat e := by
  obtain ⟨hlaw, out, hstep⟩ := hstep
  obtain ⟨hhandle, hseat, -⟩ := step_eq_some hstep
  cases e with
  | dealTile list =>
      obtain ⟨ks, hks, h4, hlength⟩ := hlaw
      simp only [Seat.next, hks, h4, implies_true, if_true] at hseat
      exact ⟨ks, hlength, (Option.some.inj hseat).symm⟩
  | draw tile =>
      obtain ⟨x, hx, hturn, hroom⟩ := hlaw
      simp only [Seat.next, hx, hturn, hroom, and_self, if_true] at hseat
      refine ⟨x, ?_, (Option.some.inj hseat).symm⟩
      rcases hturn with hturn | hturn <;> rw [hturn] <;> rfl
  | throw =>
      obtain ⟨hturn, hnot⟩ := hlaw
      obtain ⟨bot, out', hthrow, tile, x, rfl, hx⟩ := h.throw_answer hturn hnot
      obtain ⟨-, rfl⟩ := Prod.mk.inj (Option.some.inj (hhandle.symm.trans hthrow))
      simp only [Seat.next, hturn] at hseat
      exact ⟨tile, Turn.extra_of_asksThrow hturn, (Option.some.inj hseat).symm, x, hx⟩
  | broadcastThrow i tile =>
      obtain ⟨hsome, hturn⟩ := hlaw
      obtain ⟨x, hx⟩ := Option.isSome_iff_exists.mp hsome
      simp only [Seat.next, hx] at hseat
      by_cases hid : i = s.bot.player.id
      · have hasked := hturn hid
        obtain ⟨x', hx', hmem, hkeeps⟩ := h.asked tile hasked
        obtain rfl := Option.some.inj (hx'.symm.trans hx)
        simp only [hid, hasked, hmem, and_self, if_true] at hseat
        exact Or.inr ⟨x', hmem, by rw [hasked]; rfl, hkeeps, (Option.some.inj hseat).symm⟩
      · rw [if_neg hid] at hseat
        exact Or.inl (Option.some.inj hseat).symm
  | command tiles command idx => exact (Option.some.inj hseat).symm
  | success command tile =>
      obtain ⟨c, hc, hanswer⟩ := hlaw
      simp only [Seat.next, hc] at hseat
      split at hseat
      · refine ⟨c, hc, (Option.some.inj hseat).symm, ?_⟩
        rcases hanswer with hnothing | hanswer
        · exact Or.inl hnothing
        · exact h.answer c hanswer
      · exact absurd hseat (by simp)
  | broadcastCommand i command tile => exact (Option.some.inj hseat).symm
  | other => exact (Option.some.inj hseat).symm

theorem length_taken [Tokenizer] {command : ℤ} {tile : List Char} {c : Claim}
    (hc : Claim.read command tile = some c) : c.taken.length = c.size := by
  cases c with
  | eat S x =>
      rw [Claim.read] at hc
      split_ifs at hc
      · obtain ⟨⟨S', x'⟩, heat, heq⟩ := Option.map_eq_some_iff.mp hc
        obtain ⟨rfl, rfl⟩ := Claim.eat.inj heq
        rw [eatTiles] at heat
        split at heat
        · split at heat
          · split at heat
            · rename_i hrun
              obtain ⟨rfl, rfl⟩ := Prod.mk.inj (Option.some.inj heat)
              exact List.length_erase_of_mem hrun.2
            · exact absurd heat (by simp)
          · exact absurd heat (by simp)
        · exact absurd heat (by simp)
      all_goals simp at hc
  | pon | gon | ponGon | anGon | nothing => rfl

/-- A claim that was made leaves a hand of the right size. -/
theorem card_succeed [Tokenizer] {s : Seat} {command : ℤ} {tile : List Char} {c : Claim}
    (hc : Claim.read command tile = some c) (hready : Ready s c)
    (hsize : ∃ k ≤ 5, s.hand.card = 3 * k + s.turn.extra) :
    ∃ k ≤ 5, (s.succeed c).hand.card = 3 * k + (s.succeed c).turn.extra := by
  obtain ⟨k, hk, hcard⟩ := hsize
  obtain ⟨⟨hallows, -⟩, hkong⟩ := hready
  have hlength := length_taken hc
  have hle := Multiset.card_le_card hallows.1
  have hrest : (s.succeed c).hand.card = s.hand.card - c.taken.length :=
    Multiset.card_sub hallows.1
  rw [Multiset.coe_card] at hle
  rw [hrest]
  have hidle : s.turn = .idle → s.turn.extra = 1 := fun ht => by rw [ht]; rfl
  have hdrawn : (∃ x, s.turn = .drawn x) → s.turn.extra = 2 := by
    rintro ⟨x, ht⟩
    rw [ht]
    rfl
  cases c with
  | eat S x =>
      have hturn := hidle hallows.2
      exact ⟨k - 1, by omega, by simp only [Seat.succeed, Turn.extra, Claim.size] at *; omega⟩
  | pon x =>
      have hturn := hidle hallows.2.1
      exact ⟨k - 1, by omega, by simp only [Seat.succeed, Turn.extra, Claim.size] at *; omega⟩
  | gon x =>
      have hturn := hidle hallows.2
      have hturn' := hdrawn (hkong rfl)
      omega
  | ponGon x =>
      have hturn := hdrawn (hkong rfl)
      exact ⟨k, hk, by simp only [Seat.succeed, Turn.extra, Claim.size] at *; omega⟩
  | anGon x =>
      have hturn := hdrawn (hkong rfl)
      exact ⟨k - 1, by omega, by simp only [Seat.succeed, Turn.extra, Claim.size] at *; omega⟩
  | nothing => exact ⟨k, hk, by simp only [Seat.succeed, Claim.size] at *; omega⟩

/-! ### The melded triplets -/

/-- What a claim does to the mask of melded triplets. -/
def markPon (pon : BitVec 64) : Claim → BitVec 64
  | .pon x => pon ||| cardTo34 (cardOf x)
  | .ponGon x => pon - cardTo34 (cardOf x)
  | _ => pon

theorem pon_success [Tokenizer] {b b' : Bot} {command : ℤ} {tile : List Char} {c : Claim}
    (hc : Claim.read command tile = some c) (h : b.success command tile = some b') :
    b'.player.pon = markPon b.player.pon c := by
  rw [Claim.read] at hc
  rw [Bot.success] at h
  by_cases heat : command = CommandType.eat.code
  · rw [if_pos heat] at hc h
    obtain ⟨⟨S, x⟩, -, rfl⟩ := Option.map_eq_some_iff.mp hc
    split at h
    · obtain rfl := Option.some.inj h
      rfl
    · exact absurd h (by simp)
  rw [if_neg heat] at hc h
  by_cases hpon : command = CommandType.pon.code
  · rw [if_pos hpon] at hc h
    obtain ⟨x, hx, rfl⟩ := Option.map_eq_some_iff.mp hc
    obtain rfl := Option.some.inj h
    rw [markPon, ← stringToCard_of_tileKind hx]
    rfl
  rw [if_neg hpon] at hc h
  by_cases hgon : command = CommandType.gon.code
  · rw [if_pos hgon] at hc h
    obtain ⟨x, -, rfl⟩ := Option.map_eq_some_iff.mp hc
    obtain rfl := Option.some.inj h
    rfl
  rw [if_neg hgon] at hc h
  by_cases hponGon : command = CommandType.ponGon.code
  · rw [if_pos hponGon] at hc h
    obtain ⟨x, hx, rfl⟩ := Option.map_eq_some_iff.mp hc
    obtain rfl := Option.some.inj h
    rw [markPon, ← stringToCard_of_tileKind hx]
    rfl
  rw [if_neg hponGon] at hc h
  by_cases hanGon : command = CommandType.anGon.code
  · rw [if_pos hanGon] at hc h
    obtain ⟨x, -, rfl⟩ := Option.map_eq_some_iff.mp hc
    obtain rfl := Option.some.inj h
    rfl
  rw [if_neg hanGon] at hc h
  obtain rfl := Option.some.inj hc
  obtain rfl := Option.some.inj h
  rfl

/-- The mask keeps up with the melded triplets. -/
theorem bitSet_succeed {s : Seat} {pon : BitVec 64} {c : Claim}
    (h : BitSet meldBit pon fun x => x ∈ s.pons) (hallows : s.Allows c)
    (hcopies : ∀ x, s.hand.count x + 3 * s.pons.count x ≤ 4) :
    BitSet meldBit (markPon pon c) fun x => x ∈ (s.succeed c).pons := by
  cases c with
  | pon x =>
      have hbit : meldBit x < 64 := by
        have := meldBit_lt x
        omega
      rw [markPon, cardTo34_cardOf]
      refine (h.or hbit).congr fun y => ?_
      simp only [Seat.succeed, Multiset.mem_cons]
      exact or_comm
  | ponGon x =>
      have hx : x ∈ s.pons := hallows.2.2
      rw [markPon, cardTo34_cardOf]
      refine (h.sub meldBit_injective hx).congr fun y => ?_
      have hone := hcopies x
      have hpos := Multiset.count_pos.mpr hx
      simp only [Seat.succeed]
      by_cases hy : y = x
      · subst hy
        rw [← Multiset.count_pos (s := s.pons.erase y), Multiset.count_erase_self]
        simp only [ne_eq, not_true, and_false, false_iff]
        omega
      · rw [Multiset.mem_erase_of_ne hy]
        exact and_iff_left hy
  | eat | gon | anGon | nothing => exact h

/-! ### The invariant along a round -/

/-- After a claim or a kong no throw has been named yet. -/
theorem turn_succeed {s : Seat} {c : Claim} {tile : List Char}
    (h : (s.succeed c).turn = .asked tile) : c = .nothing := by
  cases c with
  | nothing => rfl
  | eat | pon | gon | ponGon | anGon => exact absurd h (by simp [Seat.succeed])

theorem Inv.size_step [Tokenizer] (h : s.Inv) (hmoves : s.Moves s'.seat e) :
    ∃ k ≤ 5, s'.seat.hand.card = 3 * k + s'.seat.turn.extra := by
  obtain ⟨k, hk, hcard⟩ := h.size
  cases e with
  | dealTile list =>
      obtain ⟨ks, ⟨k, hk, hlength⟩, hseat⟩ := hmoves
      exact ⟨k, hk, by rw [hseat]; exact hlength⟩
  | draw tile =>
      obtain ⟨x, hturn, hseat⟩ := hmoves
      refine ⟨k, hk, ?_⟩
      simp only [hseat, Multiset.card_cons, Turn.extra]
      omega
  | throw =>
      obtain ⟨tile, hturn, hseat, -⟩ := hmoves
      refine ⟨k, hk, ?_⟩
      simp only [hseat, Turn.extra]
      omega
  | broadcastThrow i tile =>
      rcases hmoves with hseat | ⟨x, hx, hturn, -, hseat⟩
      · exact ⟨k, hk, by rw [hseat, hcard]⟩
      · refine ⟨k, hk, ?_⟩
        simp only [hseat, Multiset.card_erase_of_mem hx, Nat.pred_eq_sub_one, Turn.extra]
        omega
  | success command tile =>
      obtain ⟨c, hc, hseat, rfl | hready⟩ := hmoves
      · exact ⟨k, hk, by rw [hseat]; simpa [Seat.succeed, Claim.taken] using hcard⟩
      · rw [hseat]
        exact card_succeed hc hready h.size
  | command | broadcastCommand | other =>
      have hseat : s'.seat = s.seat := hmoves
      exact ⟨k, hk, by rw [hseat, hcard]⟩

theorem Inv.asked_step [Tokenizer] (h : s.Inv) (hmoves : s.Moves s'.seat e) {tile : List Char}
    (hturn : s'.seat.turn = .asked tile) :
    ∃ x, tileKind tile = some x ∧ x ∈ s'.seat.hand ∧
      handSteps (s'.seat.hand.erase x) = handSteps s'.seat.hand := by
  have hsame : s'.seat = s.seat → ∃ x, tileKind tile = some x ∧ x ∈ s'.seat.hand ∧
      handSteps (s'.seat.hand.erase x) = handSteps s'.seat.hand := by
    intro hseat
    rw [hseat] at hturn ⊢
    exact h.asked tile hturn
  cases e with
  | dealTile list =>
      obtain ⟨ks, -, hseat⟩ := hmoves
      rw [hseat] at hturn
      exact absurd hturn (by simp)
  | draw tile =>
      obtain ⟨x, -, hseat⟩ := hmoves
      rw [hseat] at hturn
      exact absurd hturn (by simp)
  | throw =>
      obtain ⟨tile', -, hseat, hx⟩ := hmoves
      rw [hseat] at hturn ⊢
      obtain rfl : tile' = tile := Turn.asked.inj hturn
      exact hx
  | broadcastThrow i tile =>
      rcases hmoves with hseat | ⟨x, -, -, -, hseat⟩
      · exact hsame hseat
      · rw [hseat] at hturn
        exact absurd hturn (by simp)
  | success command tile =>
      obtain ⟨c, -, hseat, -⟩ := hmoves
      obtain rfl : c = .nothing := turn_succeed (by rw [← hseat, hturn])
      exact hsame (by rw [hseat]; simp [Seat.succeed, Claim.taken])
  | command | broadcastCommand | other => exact hsame hmoves

theorem Inv.pon_step [Tokenizer] (h : s.Inv) (hstep : Follows s e s') :
    BitSet meldBit s'.bot.player.pon fun x => x ∈ s'.seat.pons := by
  have hmoves := h.moves hstep
  obtain ⟨-, out, hstep⟩ := hstep
  obtain ⟨hhandle, hnext, -⟩ := step_eq_some hstep
  have hsame : s'.bot.player.pon = s.bot.player.pon → s'.seat.pons = s.seat.pons →
      BitSet meldBit s'.bot.player.pon fun x => x ∈ s'.seat.pons := by
    intro hpon hpons
    rw [hpon, hpons]
    exact h.pon
  cases e with
  | dealTile list =>
      obtain ⟨ks, -, hseat⟩ := hmoves
      obtain ⟨hbot, -⟩ := Prod.mk.inj (Option.some.inj hhandle)
      have hpon : s'.bot.player.pon = 0 := by rw [← hbot]; rfl
      rw [hpon, hseat]
      exact (bitSet_zero meldBit).congr fun x => by simp
  | draw tile =>
      obtain ⟨x, -, hseat⟩ := hmoves
      obtain ⟨hbot, -⟩ := Prod.mk.inj (Option.some.inj hhandle)
      exact hsame (by rw [← hbot]) (by rw [hseat])
  | throw =>
      obtain ⟨tile, -, hseat, -⟩ := hmoves
      exact hsame (by rw [Bot.throw_eq_some hhandle]) (by rw [hseat])
  | broadcastThrow i tile =>
      obtain ⟨hbot, -⟩ := Prod.mk.inj (Option.some.inj hhandle)
      refine hsame (by rw [← hbot]; rfl) ?_
      rcases hmoves with hseat | ⟨x, -, -, -, hseat⟩ <;> rw [hseat]
  | command tiles command idx =>
      obtain ⟨place, hbot⟩ := Bot.command_eq_some hhandle
      have hseat : s'.seat = s.seat := hmoves
      exact hsame (by rw [hbot]) (by rw [hseat])
  | success command tile =>
      obtain ⟨c, hc, hseat, -⟩ := hmoves
      obtain ⟨bot, hbot, hpair⟩ := Option.map_eq_some_iff.mp hhandle
      obtain ⟨rfl, -⟩ := Prod.mk.inj hpair
      have hallows : s.seat.Allows c := by
        simp only [Seat.next, hc] at hnext
        split at hnext
        · assumption
        · exact absurd hnext (by simp)
      rw [pon_success hc hbot, hseat]
      exact bitSet_succeed h.pon hallows h.game.copies
  | broadcastCommand i command tile =>
      obtain ⟨bot, hbot, hpair⟩ := Option.map_eq_some_iff.mp hhandle
      obtain ⟨rfl, -⟩ := Prod.mk.inj hpair
      obtain ⟨discards, hbot⟩ := Bot.broadcastCommand_eq_some hbot
      have hseat : s'.seat = s.seat := hmoves
      exact hsame (by rw [hbot]) (by rw [hseat])
  | other =>
      obtain ⟨hbot, -⟩ := Prod.mk.inj (Option.some.inj hhandle)
      have hseat : s'.seat = s.seat := hmoves
      exact hsame (by rw [← hbot]) (by rw [hseat])

/-- The answer to a lawful command. -/
theorem Inv.command_answer [Tokenizer] (h : s.Inv) {tiles : List (ℤ × List (List Char))}
    {command : ℕ}
    {idx : ℤ} (hlaw : s.Lawful (.command tiles command idx)) :
    ∃ bot out, s.bot.command tiles command = some (bot, out) ∧
      s.Legal out (.command tiles command idx) := by
  cases hown : Bot.isOwnCommand command with
  | true => exact h.draw_answer idx hown (by simpa only [Lawful, hown, if_true] using hlaw)
  | false =>
      exact h.claim_answer idx hown
        (by simpa only [Lawful, hown, Bool.false_eq_true, if_false] using hlaw)

/-- A kong that is offered, but not of a thrown tile, is offered on a draw. -/
theorem drawn_of_offered [Tokenizer] {tiles : List (ℤ × List (List Char))} {command : ℕ}
    {idx : ℤ} (hlaw : s.Lawful (.command tiles command idx)) {c : Claim}
    (hoffered : s.Offered command c) (hgon : ∀ x, c ≠ .gon x) (hkong : c.isKong = true) :
    ∃ x, s.seat.turn = .drawn x := by
  have hown : Bot.isOwnCommand command = true := by
    cases c with
    | anGon x =>
        have hbit : Bot.hasBit command .anGon = true := hoffered
        simp [Bot.isOwnCommand, hbit]
    | ponGon x =>
        have hbit : Bot.hasBit command .ponGon = true := hoffered
        simp [Bot.isOwnCommand, hbit]
    | gon x => exact absurd rfl (hgon x)
    | eat | pon | nothing => exact absurd hkong (by simp [Claim.isKong])
  simp only [Lawful, hown, if_true] at hlaw
  exact hlaw.drawn

theorem Inv.answer_step [Tokenizer] (h : s.Inv) (hstep : Follows s e s') (c : Claim)
    (hc : s'.answer = some c) : c = .nothing ∨ Ready s'.seat c := by
  have hmoves := h.moves hstep
  obtain ⟨hlaw, out, hstep⟩ := hstep
  obtain ⟨hhandle, -, hanswer⟩ := step_eq_some hstep
  rw [hanswer] at hc
  cases e with
  | command tiles command idx =>
      have hseat : s'.seat = s.seat := hmoves
      obtain ⟨bot, out', hcommand, hlegal⟩ := h.command_answer hlaw
      obtain ⟨-, rfl⟩ := Prod.mk.inj (Option.some.inj (hhandle.symm.trans hcommand))
      obtain ⟨_, tile, claim, -, hclaim, hanswers⟩ := hlegal
      obtain rfl : claim = c := Option.some.inj (hclaim.symm.trans hc)
      rw [hseat]
      refine hanswers.pays.imp_right fun hpays =>
        ⟨hpays.2, drawn_of_offered hlaw hpays.1 hanswers.gon⟩
  | broadcastCommand i command tile =>
      have hseat : s'.seat = s.seat := hmoves
      rw [hseat]
      exact h.answer c hc
  | other =>
      have hseat : s'.seat = s.seat := hmoves
      rw [hseat]
      exact h.answer c hc
  | dealTile | draw | throw | broadcastThrow | success => exact absurd hc (by simp [answerAfter])

/-- **The step lemma.** -/
theorem Inv.step [Tokenizer] (h : s.Inv) (hstep : Tracks s e s') : s'.Inv := by
  obtain ⟨hfollows, hkong⟩ := hstep
  have hmoves := h.moves hfollows
  refine ⟨?_, h.pon_step hfollows, h.size_step hmoves, fun tile => h.asked_step hmoves,
    h.answer_step hfollows⟩
  obtain ⟨-, out, hgame⟩ := hfollows
  exact Game.inv_step h.game hkong (game_step hgame)

/-- A lawful deal. -/
theorem step_deal [Tokenizer] {list : List (List Char)} {ks : List Kind}
    (hks : list.mapM tileKind = some ks)
    (h4 : ∀ x, ks.count x ≤ 4) :
    s.step (.dealTile list) = some (⟨s.bot.dealTile list, ⟨ks, 0, .idle⟩, none⟩, []) := by
  simp only [step, Bot.handle, Seat.next, hks, h4, implies_true, if_true]
  rfl

/-- A lawful deal starts a round. -/
theorem inv_deal [Tokenizer] {list : List (List Char)} (h : s.game.Inv)
    (hstep : Follows s (.dealTile list) s') : s'.Inv := by
  obtain ⟨⟨ks, hks, h4, k, hk, hlength⟩, out, hstep⟩ := hstep
  have hgame := Game.inv_step (e := .dealTile list) h trivial (game_step hstep)
  rw [step_deal hks h4] at hstep
  obtain ⟨rfl, -⟩ := Prod.mk.inj (Option.some.inj hstep)
  refine ⟨hgame, (bitSet_zero meldBit).congr fun x => by simp, ⟨k, hk, hlength⟩,
    fun tile hturn => ?_, fun c hc => ?_⟩
  · exact absurd hturn (by simp)
  · exact absurd hc (by simp)

/-- The invariant holds in every state of a lawful round. -/
theorem inv_of_reached [Tokenizer] {id : ℤ} (h : Reached id s) : s.Inv := by
  obtain ⟨list, es, hrun⟩ := h
  obtain ⟨t, hdeal, hrest⟩ := hrun.of_cons
  exact hrest.invariant (fun hs hstep => Inv.step hs hstep)
    (inv_deal (s := init id) (Game.inv_init id) hdeal.1)

/-! ### The round goes on -/

/-- A claim that can be read is carried out. -/
theorem exists_success [Tokenizer] {b : Bot} {command : ℤ} {tile : List Char} {c : Claim}
    (hc : Claim.read command tile = some c) : ∃ b', b.success command tile = some b' := by
  rw [Claim.read] at hc
  rw [Bot.success]
  by_cases heat : command = CommandType.eat.code
  · rw [if_pos heat] at hc ⊢
    obtain ⟨⟨S, x⟩, hS, -⟩ := Option.map_eq_some_iff.mp hc
    obtain ⟨first, center, rest, htokens, -⟩ := runOthers_of_eatTiles hS
    simp only [htokens]
    exact ⟨_, rfl⟩
  · rw [if_neg heat]
    split_ifs <;> exact ⟨_, rfl⟩

/-- A claim of somebody else that can be read is recorded. -/
theorem exists_broadcastCommand [Tokenizer] {b : Bot} {id command : ℤ} {tile : List Char}
    (h : id = b.player.id ∨ (Claim.read command tile).isSome = true) :
    ∃ b', b.broadcastCommand id command tile = some b' := by
  rw [Bot.broadcastCommand]
  by_cases hid : id = b.player.id
  · rw [if_pos hid]
    exact ⟨b, rfl⟩
  rw [if_neg hid]
  obtain ⟨c, hc⟩ := Option.isSome_iff_exists.mp (h.resolve_left hid)
  rw [Claim.read] at hc
  by_cases heat : command = CommandType.eat.code
  · rw [if_pos heat] at hc ⊢
    obtain ⟨⟨S, x⟩, hS, -⟩ := Option.map_eq_some_iff.mp hc
    obtain ⟨first, center, rest, htokens, -⟩ := runOthers_of_eatTiles hS
    simp only [htokens]
    exact ⟨_, rfl⟩
  · rw [if_neg heat]
    split_ifs <;> exact ⟨_, rfl⟩

/-- An event that is handled and allowed is a step. -/
theorem exists_step [Tokenizer] {bot : Bot} {out : List Emit} {seat : Seat}
    (hhandle : s.bot.handle e = some (bot, out))
    (hnext : s.seat.next s.bot.player.id out e = some seat) :
    ∃ s', s.step e = some (s', out) := by
  simp only [step, hhandle, hnext]
  exact ⟨_, rfl⟩

/-- **Every lawful event is a step**, with a legal answer. -/
theorem Inv.legal [Tokenizer] (h : s.Inv) (hlaw : s.Lawful e) :
    ∃ s' out, s.step e = some (s', out) ∧ s.Legal out e := by
  cases e with
  | dealTile list =>
      obtain ⟨ks, hks, h4, -⟩ := hlaw
      exact ⟨_, _, step_deal hks h4, rfl⟩
  | draw tile =>
      obtain ⟨x, hx, hturn, hroom⟩ := hlaw
      obtain ⟨s', hstep⟩ := exists_step (s := s) (e := .draw tile) rfl
        (by simp only [Seat.next, hx, hturn, hroom, and_self, if_true]; rfl)
      exact ⟨s', _, hstep, rfl⟩
  | throw =>
      obtain ⟨hturn, hnot⟩ := hlaw
      obtain ⟨bot, out, hthrow, hlegal⟩ := h.throw_answer hturn hnot
      obtain ⟨tile, x, rfl, -⟩ := id hlegal
      obtain ⟨s', hstep⟩ := exists_step (s := s) (e := .throw) hthrow
        (by simp only [Seat.next, hturn]; rfl)
      exact ⟨s', _, hstep, hlegal⟩
  | broadcastThrow i tile =>
      obtain ⟨hsome, hturn⟩ := hlaw
      obtain ⟨x, hx⟩ := Option.isSome_iff_exists.mp hsome
      have hnext : ∃ seat, s.seat.next s.bot.player.id [] (.broadcastThrow i tile) = some seat := by
        simp only [Seat.next, hx]
        by_cases hid : i = s.bot.player.id
        · have hasked := hturn hid
          obtain ⟨x', hx', hmem, -⟩ := h.asked tile hasked
          obtain rfl := Option.some.inj (hx'.symm.trans hx)
          simp only [hid, hasked, hmem, and_self, if_true]
          exact ⟨_, rfl⟩
        · rw [if_neg hid]
          exact ⟨_, rfl⟩
      obtain ⟨seat, hnext⟩ := hnext
      obtain ⟨s', hstep⟩ := exists_step (s := s) (e := .broadcastThrow i tile) rfl hnext
      exact ⟨s', _, hstep, rfl⟩
  | command tiles command idx =>
      obtain ⟨bot, out, hcommand, hlegal⟩ := h.command_answer hlaw
      obtain ⟨s', hstep⟩ := exists_step (s := s) (e := .command tiles command idx) hcommand rfl
      exact ⟨s', _, hstep, hlegal⟩
  | success command tile =>
      obtain ⟨c, hc, hanswer⟩ := hlaw
      have hallows : s.seat.Allows c := by
        rcases hanswer with rfl | hanswer
        · exact ⟨Multiset.zero_le _, trivial⟩
        · rcases h.answer c hanswer with rfl | hready
          · exact ⟨Multiset.zero_le _, trivial⟩
          · exact hready.1.1
      obtain ⟨bot, hbot⟩ := exists_success (b := s.bot) hc
      have hhandle : s.bot.handle (.success command tile) = some (bot, []) := by
        simp only [Bot.handle, hbot, Option.map_some]
      obtain ⟨s', hstep⟩ := exists_step hhandle
        (by simp only [Seat.next, hc, hallows, if_true]; rfl)
      exact ⟨s', _, hstep, rfl⟩
  | broadcastCommand i command tile =>
      obtain ⟨bot, hbot⟩ := exists_broadcastCommand hlaw
      have hhandle : s.bot.handle (.broadcastCommand i command tile) = some (bot, []) := by
        simp only [Bot.handle, hbot, Option.map_some]
      obtain ⟨s', hstep⟩ := exists_step hhandle rfl
      exact ⟨s', _, hstep, rfl⟩
  | other =>
      obtain ⟨s', hstep⟩ := exists_step (s := s) (e := .other) rfl rfl
      exact ⟨s', _, hstep, rfl⟩

/-! ### The step count -/

/-- The bot has claimed a run or a triplet. -/
def isClaim : ServerEvent → Bool
  | .success command _ => command = CommandType.eat.code ∨ command = CommandType.pon.code
  | _ => false

/-- The bot has drawn a tile. -/
def isDraw : ServerEvent → Bool
  | .draw _ => true
  | _ => false

/-- A new round. -/
def isDeal : ServerEvent → Bool
  | .dealTile _ => true
  | _ => false

/-- A run or a triplet is announced by its command. -/
theorem isMeld_of_read [Tokenizer] {command : ℤ} {tile : List Char} {c : Claim}
    (hc : Claim.read command tile = some c) : c.isMeld = isClaim (.success command tile) := by
  rw [Claim.read] at hc
  by_cases heat : command = CommandType.eat.code
  · rw [if_pos heat] at hc
    obtain ⟨r, -, rfl⟩ := Option.map_eq_some_iff.mp hc
    simp [Claim.isMeld, isClaim, heat]
  rw [if_neg heat] at hc
  by_cases hpon : command = CommandType.pon.code
  · rw [if_pos hpon] at hc
    obtain ⟨x, -, rfl⟩ := Option.map_eq_some_iff.mp hc
    simp [Claim.isMeld, isClaim, hpon]
  rw [if_neg hpon] at hc
  have hno : isClaim (.success command tile) = false := by simp [isClaim, heat, hpon]
  rw [hno]
  split_ifs at hc
  · obtain ⟨x, -, rfl⟩ := Option.map_eq_some_iff.mp hc
    rfl
  · obtain ⟨x, -, rfl⟩ := Option.map_eq_some_iff.mp hc
    rfl
  · obtain ⟨x, -, rfl⟩ := Option.map_eq_some_iff.mp hc
    rfl
  · obtain rfl := Option.some.inj hc
    rfl

/-- **One event**: a claim lowers the step count by one, a draw by one at most, and nothing
else changes it. -/
theorem Inv.steps_step [Tokenizer] (h : s.Inv) (hstep : Follows s e s') (hdeal : isDeal e = false) :
    handSteps s'.seat.hand + (if isClaim e then 1 else 0) ≤ handSteps s.seat.hand ∧
      handSteps s.seat.hand ≤ handSteps s'.seat.hand + (if isClaim e then 1 else 0) +
        (if isDraw e then 1 else 0) := by
  have hmoves := h.moves hstep
  cases e with
  | dealTile list => exact absurd hdeal (by simp [isDeal])
  | draw tile =>
      obtain ⟨x, hturn, hseat⟩ := hmoves
      obtain ⟨k, -, hcard⟩ := h.card_idle hturn
      have hlaw := handSteps_cons h.count_le hcard x
      simp only [hseat, isClaim, isDraw, Bool.false_eq_true, if_false, if_true]
      omega
  | throw =>
      obtain ⟨tile, -, hseat, -⟩ := hmoves
      simp [hseat, isClaim, isDraw]
  | broadcastThrow i tile =>
      rcases hmoves with hseat | ⟨x, -, -, hkeeps, hseat⟩
      · simp [hseat, isClaim, isDraw]
      · simp [hseat, hkeeps, isClaim, isDraw]
  | success command tile =>
      obtain ⟨c, hc, hseat, hready⟩ := hmoves
      have hhand : s'.seat.hand = s.seat.hand - c.taken := by
        rw [hseat]
        rfl
      rw [← isMeld_of_read hc, hhand]
      rcases hready with rfl | ⟨⟨-, hpays⟩, -⟩
      · simp [Claim.taken, Claim.isMeld, isDraw]
      · simp only [isDraw, Bool.false_eq_true, if_false]
        omega
  | command | broadcastCommand | other =>
      have hseat : s'.seat = s.seat := hmoves
      simp [hseat, isClaim, isDraw]

/-- **Legal play.** In every state of a round by the rules, the bot handles every event that
the server may send, and answers it legally. -/
theorem legal_of_reached [Tokenizer] {id : ℤ} (h : Reached id s) (hlaw : s.Lawful e) :
    ∃ s' out, s.step e = some (s', out) ∧ s.Legal out e :=
  (inv_of_reached h).legal hlaw

/-- **Every answer is a step forward.** From any state of a round by the rules to a later
one, the step count goes down by one with each claim of the bot, by at most one with each
draw, and never up. -/
theorem steps_of_run [Tokenizer] {id : ℤ} {es : List ServerEvent} (h : Reached id s)
    (hrun : Run Tracks s es s') (hdeal : ∀ e ∈ es, isDeal e = false) :
    handSteps s'.seat.hand + es.countP isClaim ≤ handSteps s.seat.hand ∧
      handSteps s.seat.hand ≤
        handSteps s'.seat.hand + es.countP isClaim + es.countP isDraw := by
  have hinv := inv_of_reached h
  induction hrun with
  | nil => simp
  | snoc hrun hlast ih =>
      rename_i t u es e
      obtain ⟨hlow, hhigh⟩ := ih fun e' he' => hdeal e' (List.mem_append_left _ he')
      have ht : t.Inv := hrun.invariant (fun hs hstep => Inv.step hs hstep) hinv
      obtain ⟨hlow', hhigh'⟩ := ht.steps_step hlast.1 (hdeal e (by simp))
      simp only [List.countP_append, List.countP_singleton, Nat.cast_add, Nat.cast_ite,
        Nat.cast_one, Nat.cast_zero]
      omega

/-! ### A claim -/

section

open Words

/-- Four tiles, two of which wait for a third. -/
def claimDeal : List (List Char) :=
  ["c1", "c2", "d5", "b1"].map String.toList

/-- The third is thrown by somebody else, and the bot claims it for the run. -/
def claimEvents : List ServerEvent :=
  [.broadcastThrow 2 "c3".toList, .command [] CommandType.eat.code 0,
    .success CommandType.eat.code "c1,c3".toList]

/-- This is a lawful round, and a throw follows. -/
theorem exists_claimRun : ∃ s s', Run Tracks (init 7) [.dealTile claimDeal] s ∧
    Run Tracks s claimEvents s' ∧ s'.Lawful .throw := by
  have hks : claimDeal.mapM tileKind = some [0, 1, 13, 18] := by decide +kernel
  have hc1 : tileKind "c1".toList = some 0 := by decide +kernel
  have hplain : "c1".toList.flatMap Json.writeChar = "c1".toList := by decide +kernel
  have hc3 : tileKind "c3".toList = some 2 := by decide +kernel
  have htiles : eatTiles "c1,c3".toList = some ([0, 1], 2) := by decide +kernel
  have hclaim : Claim.read CommandType.eat.code "c1,c3".toList = some (.eat [0, 1] 2) := by
    rw [Claim.read, if_pos rfl, htiles]
    rfl
  let s₁ : Play :=
    ⟨(Bot.init 7).dealTile claimDeal, ⟨([0, 1, 13, 18] : List Kind), 0, .idle⟩, none⟩
  let s₂ : Play := ⟨s₁.bot.broadcastThrow 2 "c3".toList, s₁.seat, none⟩
  have hdeal : Tracks (init 7) (.dealTile claimDeal) s₁ :=
    ⟨⟨⟨_, hks, by decide, 1, by decide, rfl⟩, _, step_deal hks (by decide)⟩, trivial⟩
  have hthrow : Tracks s₁ (.broadcastThrow 2 "c3".toList) s₂ := by
    refine ⟨⟨⟨by rw [hc3]; rfl, fun hid => absurd hid (by decide)⟩, [], ?_⟩, trivial⟩
    simp only [step, Bot.handle, Seat.next, hc3]
    rfl
  have hthrown : s₂.bot.throwTile = cardOf 2 := stringToCard_of_tileKind hc3
  have hout : (s₂.bot.command [] CommandType.eat.code).map Prod.snd =
      some [.sendCommand (commandText .eat "c1".toList)] := by decide +kernel
  obtain ⟨⟨bot, out⟩, hcommand, rfl⟩ := Option.map_eq_some_iff.mp hout
  let s₃ : Play := ⟨bot, s₁.seat, some (.eat [0, 1] 2)⟩
  have hanswer : claimOf s₂.bot [.sendCommand (commandText .eat "c1".toList)] =
      some (.eat [0, 1] 2) := claimOf_eat hplain hc1 hthrown
  have hoffer : s₂.ClaimOffer CommandType.eat.code :=
    ⟨rfl, 2, hthrown, by decide, fun _ => ⟨by decide, 0, {0, 1},
      Or.inr (Or.inr ⟨rfl, 0, by decide, rfl, rfl⟩), by decide⟩,
      fun hpon => absurd hpon (by decide)⟩
  have hasked : Tracks s₂ (.command [] CommandType.eat.code 0) s₃ := by
    refine ⟨⟨hoffer, [.sendCommand (commandText .eat "c1".toList)], ?_⟩, trivial⟩
    simp only [step, Bot.handle, hcommand, Seat.next, answerAfter, hanswer]
    rfl
  obtain ⟨bot', hbot'⟩ := exists_success (b := bot) hclaim
  let s₄ : Play := ⟨bot', s₁.seat.succeed (.eat [0, 1] 2), none⟩
  have hsuccess : Tracks s₃ (.success CommandType.eat.code "c1,c3".toList) s₄ := by
    refine ⟨⟨⟨_, hclaim, Or.inr rfl⟩, [], ?_⟩, by simp [KongOnDrawn, s₃, s₁]⟩
    have hallows : s₁.seat.Allows (.eat [0, 1] 2) := ⟨by decide, rfl⟩
    simp only [step, Bot.handle, s₃, hbot', Option.map_some, Seat.next, hclaim, hallows, if_true]
    rfl
  refine ⟨s₁, s₄, (Run.nil _).snoc hdeal, (((Run.nil _).snoc hthrow).snoc hasked).snoc hsuccess,
    rfl, ?_⟩
  rintro ⟨k, hcomplete⟩
  have hcard := CompleteHand.card hcomplete
  have hrest : (([0, 1, 13, 18] : List Kind) : Multiset Kind) - ([0, 1] : List Kind) =
      ([13, 18] : List Kind) := by decide
  have hhand : s₄.seat.hand = ([13, 18] : List Kind) := hrest
  rw [hhand] at hcard hcomplete
  obtain rfl : k = 0 := by
    have : 2 = 3 * k + 2 := hcard
    omega
  obtain ⟨G, p, hG, -, ⟨y, rfl⟩, hsum⟩ := hcomplete
  obtain rfl := Multiset.card_eq_zero.mp hG
  have hpair : ∀ y : Kind, (([13, 18] : List Kind) : Multiset Kind) ≠ {y, y} := by decide
  exact hpair y (by simpa using hsum)

/-- In this round the throw is answered legally. -/
theorem legal_of_reached_claim : ∃ s s' out, Reached 7 s ∧ s.step .throw = some (s', out) ∧
    s.Legal out .throw := by
  obtain ⟨s, s', hdeal, hrun, hlaw⟩ := exists_claimRun
  have hreached : Reached 7 s' := ⟨claimDeal, claimEvents, hdeal.append hrun⟩
  obtain ⟨t, out, hstep, hlegal⟩ := legal_of_reached hreached hlaw
  exact ⟨s', t, out, hreached, hstep, hlegal⟩

/-- In this round the claim lowers the step count by one. -/
theorem steps_of_run_claim : ∃ s s', Reached 7 s ∧ Run Tracks s claimEvents s' ∧
    handSteps s'.seat.hand + 1 = handSteps s.seat.hand := by
  obtain ⟨s, s', hdeal, hrun, -⟩ := exists_claimRun
  have hreached : Reached 7 s := ⟨claimDeal, [], hdeal⟩
  obtain ⟨hlow, hhigh⟩ := steps_of_run hreached hrun (by decide)
  have hclaims : claimEvents.countP isClaim = 1 := by decide
  have hdraws : claimEvents.countP isDraw = 0 := by decide
  rw [hclaims] at hlow hhigh
  rw [hdraws] at hhigh
  exact ⟨s, s', hreached, hrun, by push_cast at hlow hhigh; omega⟩

end

end Play

end MahjongAI
