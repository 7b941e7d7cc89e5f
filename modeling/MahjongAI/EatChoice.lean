import MahjongAI.Game
import MahjongAI.ThrowChoice

/-!
# The Choice of the Run Claim

`EatOrNot` decides whether to claim a suited tile for a run, with one hand-coded case for
each rank near an end of the suit, and names the place of the claimed tile in the run: `2`
for the bottom, `1` for the middle, `0` for the top. The handler of the command decodes
that number again and sends the lowest tile of the run.

The server offers the claim only when the hand has the two other tiles of some run; at the
ends of a suit the code relies on it.

## Main results

* `eatOrNot_iff`: the claim is made exactly when some run lowers the step count, for such a
  run, and the handler then sends the lowest tile of that run.
-/

open Packed

namespace MahjongAI

/-- Setting aside two tiles `S` of the hand for a run in which the claimed tile `x` has the
place `d` lowers the step count by one. -/
def EatStep (H : Multiset Kind) (x : Kind) (d : ℤ) (S : Multiset Kind) : Prop :=
  EatOption x d S ∧ S ≤ H ∧ handSteps (H - S) = handSteps H - 1

/-- The run of a claim, from the tile and its place: the claimed tile lies `2 - d` above the
lowest one. -/
theorem EatOption.exists_run {x : Kind} {d : ℤ} {S : Multiset Kind} (h : EatOption x d S) :
    ∃ y a b, RunStart y ∧ S = {a, b} ∧ x ::ₘ S = {y, y + 1, y + 2} ∧
      (d = 0 ∨ d = 1 ∨ d = 2) ∧ (cardOf y).color = (cardOf x).color ∧
      (cardOf y).value = (cardOf x).value - (2 - d) := by
  rcases h with ⟨rfl, hx, rfl⟩ | ⟨rfl, y, hy, rfl, rfl⟩ | ⟨rfl, y, hy, rfl, rfl⟩
  · exact ⟨x, x + 1, x + 2, hx, rfl, rfl, by omega, rfl, by omega⟩
  · obtain ⟨-, -, hlow, -⟩ := tile_of_run hy
    have hvalue := congrArg MJCard.value hlow
    simp only at hvalue
    exact ⟨y, y, y + 2, hy, rfl, Multiset.cons_swap _ _ _, by omega,
      (congrArg MJCard.color hlow).symm, by omega⟩
  · obtain ⟨-, -, -, -, -, hlow⟩ := tile_of_run hy
    have hvalue := congrArg MJCard.value hlow
    simp only at hvalue
    refine ⟨y, y, y + 1, hy, rfl, ?_, by omega, (congrArg MJCard.color hlow).symm, by omega⟩
    refine Multiset.ext.mpr fun z => ?_
    simp only [Multiset.insert_eq_cons, Multiset.count_cons, Multiset.count_singleton]
    omega

/-- A run that pays lowers the step count by exactly one. -/
theorem eatPays_iff {k : ℕ} {H : Multiset Kind} (h4 : ∀ x, H.count x ≤ 4)
    (hH : H.card = 3 * k + 1) {x : Kind} {d : ℤ} :
    EatPays H x d ↔ ∃ S, EatStep H x d S := by
  constructor
  · rintro ⟨S, hoption, hle, hlt⟩
    obtain ⟨y, a, b, hy, rfl, hrun, -⟩ := hoption.exists_run
    have hgroup : IsGroup {a, b, x} := by
      refine Or.inr ⟨y, hy, ?_⟩
      rw [← hrun]
      refine Multiset.ext.mpr fun z => ?_
      simp only [Multiset.insert_eq_cons, Multiset.count_cons, Multiset.count_singleton]
      omega
    have hlaw := handSteps_sub_pair h4 hH hle hgroup
    exact ⟨{a, b}, hoption, hle, by omega⟩
  · rintro ⟨S, hoption, hle, hstep⟩
    exact ⟨S, hoption, hle, by omega⟩

/-- Every suited tile has a text. -/
theorem toString_isSome : ∀ y : Kind, y.val < 27 → ((cardOf y).toString).isSome := by
  decide +kernel

/-- **The handler** of a command that offers a run claim and nothing before it sends the
lowest tile of the run that `EatOrNot` has named. -/
theorem command_eat {b : Bot} {tiles : List (ℤ × List (List Char))} {command : ℕ} {x y : Kind}
    {i : ℤ} (hthrown : b.throwTile = cardOf x) (hown : Bot.isOwnCommand command = false)
    (hhu : Bot.hasBit command .hu = false) (heat : Bot.hasBit command .eat = true)
    (hanswer : b.player.eatOrNot (cardOf x) = (true, i)) (hy : y.val < 27)
    (hi : i = 0 ∨ i = 1 ∨ i = 2) (hcolor : (cardOf y).color = (cardOf x).color)
    (hvalue : (cardOf y).value = (cardOf x).value - (2 - i)) :
    ∃ tile, (cardOf y).toString = some tile ∧
      b.command tiles command =
        some ({ b with player := { b.player with pickToEat := i } },
          [.sendCommand (commandText .eat tile)]) := by
  obtain ⟨tile, htile⟩ := Option.isSome_iff_exists.mp (toString_isSome y hy)
  refine ⟨tile, htile, ?_⟩
  have hwanna : b.player.wannaHGPE false (Bot.hasBit command .pon) true (cardOf x) =
      (.eat, { b.player with pickToEat := i }) := by
    simp [Irb00.wannaHGPE, hanswer]
  have hlow : (if i = 0 then { cardOf x with value := (cardOf x).value - 2 }
      else if i = 1 then { cardOf x with value := (cardOf x).value - 1 }
      else cardOf x) = cardOf y := by
    have hcard : ∀ v : ℤ, v = 2 - i → (⟨(cardOf x).color, (cardOf x).value - v⟩ : MJCard) =
        cardOf y := by
      rintro v rfl
      rw [← hcolor, ← hvalue]
    rcases hi with rfl | rfl | rfl
    · exact hcard 2 rfl
    · exact hcard 1 rfl
    · have hsame := hcard 0 rfl
      rw [sub_zero] at hsame
      exact hsame
  simp only [Bot.command, hown, hhu, heat, hthrown, hwanna, Irb00.pick2Eat, Bool.false_eq_true,
    if_false, if_true, hlow, htile]

section Eat

variable {k : ℕ} {p : Irb00} {H : Multiset Kind} {x : Kind}

/-- **The run claim.** Where some run is offered, `EatOrNot` claims the tile exactly when
some run lowers the step count, and names the place of the tile in such a run whose two
other tiles are in the hand. The handler then sends the lowest tile of that run, which has
one of the ranks from which a run can start. -/
theorem eatOrNot_iff (hhand : p.Hand.Counts H) (hH : H.card = 3 * k + 1) (hx : x.val < 27)
    (hoffer : ∃ d S, EatOption x d S ∧ S ≤ H) :
    ((InPlace.eatOrNot p (cardOf x)).1 = true ↔ ∃ d S, EatStep H x d S) ∧
      ∀ i, InPlace.eatOrNot p (cardOf x) = (true, i) →
        ∃ y S, EatStep H x i S ∧ RunStart y ∧ x ::ₘ S = {y, y + 1, y + 2} ∧
          ∀ (b : Bot) (tiles : List (ℤ × List (List Char))) (command : ℕ),
            b.player = p → b.throwTile = cardOf x → Bot.isOwnCommand command = false →
            Bot.hasBit command .hu = false → Bot.hasBit command .eat = true →
            ∃ tile, (cardOf y).toString = some tile ∧
              b.command tiles command = some ({ b with player := { p with pickToEat := i } },
                [.sendCommand (commandText .eat tile)]) := by
  classical
  have hanswer := eatOrNot_eq hhand hH hx hoffer
  have hpays : ∀ d, EatPays H x d ↔ ∃ S, EatStep H x d S := fun d =>
    eatPays_iff hhand.count_le hH
  have hplaces : ∀ d, EatPays H x d → d = 1 ∨ d = 2 ∨ d = 0 := by
    rintro d ⟨S, hoption, -⟩
    rcases hoption.place with ⟨hd, -⟩ | ⟨hd, -⟩ | ⟨hd, -⟩ <;> omega
  have hclaimed : ∀ i, p.eatOrNot (cardOf x) = (true, i) → EatPays H x i := by
    intro i hi
    rw [hanswer] at hi
    split_ifs at hi with h1 h2 h0
    · exact (Prod.mk.inj hi).2 ▸ h1
    · exact (Prod.mk.inj hi).2 ▸ h2
    · exact (Prod.mk.inj hi).2 ▸ h0
    · exact absurd (Prod.mk.inj hi).1 (by simp)
  rw [InPlace.eatOrNot_eq_inPlace]
  refine ⟨⟨fun htrue => ?_, fun ⟨d, hstep⟩ => ?_⟩, fun i hi => ?_⟩
  · exact ⟨_, (hpays _).mp (hclaimed _ (Prod.ext htrue rfl))⟩
  · have hd := (hpays d).mpr hstep
    rw [hanswer]
    split_ifs with h1 h2 h0
    · rfl
    · rfl
    · rfl
    · rcases hplaces d hd with rfl | rfl | rfl
      · exact absurd hd h1
      · exact absurd hd h2
      · exact absurd hd h0
  · obtain ⟨S, hstep⟩ := (hpays i).mp (hclaimed i hi)
    obtain ⟨y, a, c, hy, -, hrun, hplace, hcolor, hvalue⟩ := hstep.1.exists_run
    refine ⟨y, S, hstep, hy, hrun, ?_⟩
    rintro b tiles command rfl hthrown hown hhu heat
    exact command_eat hthrown hown hhu heat hi hy.1 hplace hcolor hvalue

end Eat

/-- Two tiles of a run beside two lone ones, offered the third. -/
theorem eatOrNot_iff_run :
    (InPlace.eatOrNot (playerWith ((MJCards.make false).addCards
        ([1, 2, 9, 18].map cardOf))) (cardOf 0)).1 = true ↔
      ∃ d S, EatStep ([1, 2, 9, 18] : List Kind) 0 d S := by
  have hcounts : ((MJCards.make false).addCards ([1, 2, 9, 18].map cardOf)).Counts
      (0 + ([1, 2, 9, 18] : List Kind)) := counts_make_false.addCards (by decide)
  exact (eatOrNot_iff (k := 1) (p := playerWith _) (H := ([1, 2, 9, 18] : List Kind)) hcounts rfl
    (by decide) ⟨2, {1, 2}, Or.inl ⟨rfl, by decide, rfl⟩, by decide⟩).1

end MahjongAI
