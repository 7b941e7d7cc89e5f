import MahjongAI.Progress

/-!
# The Throws at the Table

A lawful round, followed at the table: `Table` knows every tile that was thrown or melded by
anybody. A tile that improves the hand is worth as much as there are copies of it whose
place the bot does not know. `BestAt` says that a throw costs no step and keeps the most of
these; nothing in it speaks about the words of the player.

## Main results

* `bestAt_iff`: the best throw by the discards is the best throw at the table.
* `best_of_runs`: in a lawful round every throw is the best.
-/

open Runs

namespace MahjongAI

namespace Table

/-- The copies of a kind whose place the bot does not know. -/
def toCome (t : Table) (x : Kind) : ℕ :=
  4 - t.known.count x

/-- The tiles to come that bring the hand a step forward once `u` is thrown. -/
def useful (t : Table) (u : Kind) : ℕ :=
  ∑ x : Kind, if handSteps (x ::ₘ t.seat.hand.erase u) + 1 = handSteps t.seat.hand then
    t.toCome x else 0

/-- The throw `u` costs no step and keeps the most useful tiles to come among those that
cost none, the first of these in the order of kinds. -/
structure BestAt (t : Table) (u : Kind) : Prop where
  mem : u ∈ t.seat.hand
  keeps : handSteps (t.seat.hand.erase u) = handSteps t.seat.hand
  best : ∀ v ∈ t.seat.hand, handSteps (t.seat.hand.erase v) = handSteps t.seat.hand →
    t.useful v ≤ t.useful u
  first : ∀ v ∈ t.seat.hand, handSteps (t.seat.hand.erase v) = handSteps t.seat.hand →
    t.useful v = t.useful u → u ≤ v

variable {t : Table}

/-- Without own concealed kongs the tiles to come are those that `Throw` counts. -/
theorem usefulTiles_eq (hknown : ∀ x, t.known.count x ≤ 4) (hanKong : t.anKong = 0) (u : Kind) :
    usefulTiles t.seat.hand t.seen u = t.useful u := by
  rw [usefulTiles, useful, Nat.cast_sum]
  refine Finset.sum_congr rfl fun x _ => ?_
  have hx := hknown x
  simp only [known, hanKong, add_zero, Multiset.count_add] at hx
  by_cases hstep : handSteps (x ::ₘ t.seat.hand.erase u) = handSteps t.seat.hand - 1
  · rw [if_pos hstep, if_pos (by omega)]
    simp only [toCome, known, hanKong, add_zero, Multiset.count_add]
    omega
  · rw [if_neg hstep, if_neg (by omega)]
    rfl

theorem bestAt_iff (hknown : ∀ x, t.known.count x ≤ 4) (hanKong : t.anKong = 0) (u : Kind) :
    t.BestAt u ↔ BestThrow t.seat.hand t.seen u := by
  have huseful := usefulTiles_eq hknown hanKong
  constructor
  · intro h
    refine ⟨h.mem, h.keeps, fun v hv hkeeps => ?_, fun v hv hkeeps hsame => ?_⟩
    · rw [huseful, huseful]
      exact_mod_cast h.best v hv hkeeps
    · rw [huseful, huseful] at hsame
      exact h.first v hv hkeeps (by exact_mod_cast hsame)
  · intro h
    refine ⟨h.mem, h.keeps, fun v hv hkeeps => ?_, fun v hv hkeeps hsame => ?_⟩
    · have hle := h.best v hv hkeeps
      rw [huseful, huseful] at hle
      exact_mod_cast hle
    · refine h.first v hv hkeeps ?_
      rw [huseful, huseful, hsame]

end Table

namespace Play

/-- A step at the table in which nothing happens that the handlers forget. -/
def AtTable [Tokenizer] (g : TableGame) (e : ServerEvent) (g' : TableGame) : Prop :=
  TableGame.step g e = some g' ∧ KongCounted g.table.seat e

/-- The round and the table follow the same game. -/
theorem agree_of_runs [Tokenizer] {id : ℤ} {es : List ServerEvent} {s : Play} {g : TableGame}
    (hround : Run Tracks (init id) es s)
    (htable : Run (fun g e g' => TableGame.step g e = some g') (TableGame.init id) es g) :
    s.bot = g.bot ∧ s.seat = g.table.seat := by
  refine (hround.zip htable).invariant
    (I := fun x => x.1.bot = x.2.bot ∧ x.1.seat = x.2.table.seat) ?_ ⟨rfl, rfl⟩
  rintro ⟨s, g⟩ e ⟨s', g'⟩ ⟨hbot, hseat⟩ ⟨⟨⟨-, out, hstep⟩, -⟩, htable⟩
  simp only at hbot hseat ⊢
  obtain ⟨hhandle, hnext, -⟩ := step_eq_some hstep
  obtain ⟨out', t, hhandle', -, hnext', -⟩ := TableGame.step_eq_some htable
  rw [← hbot] at hhandle' hnext'
  obtain ⟨hbot', rfl⟩ := Prod.mk.inj (Option.some.inj (hhandle.symm.trans hhandle'))
  rw [← hseat] at hnext'
  exact ⟨hbot', Option.some.inj (hnext.symm.trans hnext')⟩

/-- **Every throw is the best.** In a lawful round that is followed at the table, without own
concealed kongs, the answer to a throw request names the tile that costs no step and keeps
the most useful tiles to come, counted by what lies on the table. -/
theorem best_of_runs [Tokenizer] {id : ℤ} {list : List (List Char)} {es : List ServerEvent}
    {s : Play}
    {g : TableGame} (hround : Run Tracks (init id) (.dealTile list :: es) s)
    (htable : Run AtTable (TableGame.init id) (.dealTile list :: es) g)
    (hlaw : s.Lawful .throw) :
    ∃ u tile s', tileKind tile = some u ∧ g.table.BestAt u ∧
      s.step .throw = some (s', [.throwTile tile]) := by
  have hinv : s.Inv := inv_of_reached ⟨list, es, hround⟩
  have hknown : g.Inv := htable.invariant (I := TableGame.Inv)
    (fun h hstep => TableGame.inv_step h hstep.2 hstep.1) (TableGame.inv_init id)
  obtain ⟨hbot, hseat⟩ := agree_of_runs hround (htable.mono fun hstep => hstep.1)
  obtain ⟨hturn, hnot⟩ := hlaw
  obtain ⟨k, hcard, h17⟩ := hinv.card_throw (Turn.extra_of_asksThrow hturn)
  have hdiscards : s.bot.player.discards.Counts g.table.seen := hbot ▸ hknown.discards
  have hroom : ∀ x, (s.seat.hand + g.table.seen).count x ≤ 4 := by
    intro x
    have hx := hknown.known x
    rwa [Table.known, hknown.anKong, add_zero, ← hseat] at hx
  have hpos := one_le_handSteps hinv.count_le hcard hnot
  obtain ⟨u, hbest, hthrow⟩ := throw_spec (hinv.game.holds_throwHand hturn) hdiscards hroom hcard
    h17 (exists_keeper hinv.count_le hcard hpos)
  obtain ⟨tile, htile, hkind, -⟩ := exists_text u
  simp only [Play.game] at hthrow
  obtain ⟨bot, hanswer⟩ : ∃ bot, s.bot.throw = some (bot, [.throwTile tile]) := by
    simp only [Bot.throw, hthrow, htile]
    exact ⟨_, rfl⟩
  obtain ⟨s', hstep⟩ := exists_step (s := s) (e := .throw) hanswer
    (by simp only [Seat.next, hturn]; rfl)
  refine ⟨u, tile, s', hkind, ?_, hstep⟩
  rw [Table.bestAt_iff hknown.known hknown.anKong, ← hseat]
  exact hbest

section

open Words

/-- After the claim of a run the throw is the best of two tiles. -/
theorem best_of_runs_claim : ∃ (s s' : Play) (g : TableGame) (u : Kind) (tile : List Char),
    g.table.seen.card = 3 ∧ g.table.BestAt u ∧ s.step .throw = some (s', [.throwTile tile]) := by
  obtain ⟨s₁, s, hdeal, hrun, hlaw⟩ := exists_claimRun
  have hround : Run Tracks (init 7) (.dealTile claimDeal :: claimEvents) s := hdeal.append hrun
  have htable : ((ServerEvent.dealTile claimDeal :: claimEvents).foldlM (fun g e =>
      if KongCounted g.table.seat e then TableGame.step g e else none)
      (TableGame.init 7)).any (fun g => g.table.seen.card = 3) = true := by decide +kernel
  obtain ⟨g, hg, hcard⟩ := (Option.any_eq_true _ _).mp htable
  obtain ⟨u, tile, s', -, hbest, hstep⟩ := best_of_runs hround
    (run_of_foldlM_guard (P := fun g : TableGame => KongCounted g.table.seat) hg) hlaw
  exact ⟨s, s', g, u, tile, of_decide_eq_true hcard, hbest, hstep⟩

end

end Play

end MahjongAI
