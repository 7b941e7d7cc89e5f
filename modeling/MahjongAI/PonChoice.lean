import MahjongAI.ThrowChoice

/-!
# The Two Bots on a Triplet Claim

`Irb01` is a second bot beside `Irb00`, with its own copy of the step count: the texts of
its `StepToHu1617`, of the functions this calls and of `HandToTiles` are those of `Irb00`.
Its `WannaHGPE` answers an offered triplet claim by comparing the hand with the claimed
tile to the hand without it, and claims when the former is further from complete.

A tile never takes a hand further from complete, so `Irb01` never claims
(`Irb01.wannaHGPE_pon_ne`). `Irb00` claims when setting the two copies aside is a step
forward.

## Main results

* `tripletWaits_iff`: the claim of `x` is a step forward exactly when some nearest complete
  hand has the triplet of `x` among its groups and lacks a copy of `x`.
* `pon_agree_iff`: the bots agree on the claim exactly when there is no such hand;
  `not_pon_agree`: there may be one.
-/

open Packed

namespace MahjongAI

/-- `Irb01` with the field of `Player` that `WannaHGPE` reads. -/
structure Irb01 where
  Hand : MJCards

/-- `Irb01::WannaHGPE`. -/
def Irb01.wannaHGPE (p : Irb01) (canHu canGon canPon canEat : Bool) (card : MJCard) :
    CommandType :=
  if canHu then .hu
  else if canGon then .none
  else if canPon then
    let Hand_ := handToTiles p.Hand
    let Hand_Card := handToTilesWith p.Hand card
    let step := stepToHu1617 Hand_
    let stepCard := stepToHu1617 Hand_Card
    if stepCard > step then .pon else .none
  else if canEat then .eat
  else .none

/-- Some complete hand of `k + 1` groups, the nearest to `H` that there is, has the triplet
of `x` among its groups and lacks a copy of `x` that `H` would have to draw. -/
def TripletWaits (k : ℕ) (H : Multiset Kind) (x : Kind) : Prop :=
  ∃ W, CompleteHand k W ∧ x ∈ (W + {x, x, x}) - H ∧
    ∀ W', CompleteHand (k + 1) W' → ((W + {x, x, x}) - H).card ≤ (W' - H).card

/-- The bots give the same answer to the offer of a triplet claim of `x` and nothing else,
and it is the claim exactly when setting the two copies aside lowers the step count. -/
def PonAgree (p : Irb00) (H : Multiset Kind) (x : Kind) : Prop :=
  ((⟨p.Hand⟩ : Irb01).wannaHGPE false false true false (cardOf x) = .pon ↔
      (p.wannaHGPE false true false (cardOf x)).1 = .pon) ∧
    ((p.wannaHGPE false true false (cardOf x)).1 = .pon ↔
      handSteps (H - {x, x}) = handSteps H - 1)

section Pon

variable {k : ℕ} {p : Irb00} {H : Multiset Kind} {x : Kind} (hhand : p.Hand.Counts H)
  (hH : H.card = 3 * (k + 1) + 1)

/-- The nearest complete hands are those at the exchange distance. -/
theorem nearest_iff {W : Multiset Kind} (hW : CompleteHand (k + 1) W) :
    (W - H).card = handDist (k + 1) H ↔
      ∀ W', CompleteHand (k + 1) W' → (W - H).card ≤ (W' - H).card := by
  constructor
  · intro hcard W' hW'
    rw [hcard]
    exact Exchange.dist_le hW'
  · intro hmin
    obtain ⟨W', hW', hcard⟩ := Exchange.exists_card_sub_eq_dist (k := k + 1) groups_nonempty
      pairs_nonempty H
    refine le_antisymm ?_ (Exchange.dist_le hW)
    calc (W - H).card ≤ (W' - H).card := hmin W' hW'
      _ = handDist (k + 1) H := hcard

include hhand hH

/-- **The triplet claim** of a tile of which the hand has two is a step forward exactly when
some nearest complete hand waits for it. -/
theorem tripletWaits_iff (hx : 2 ≤ H.count x) :
    TripletWaits k H x ↔ handSteps (H - {x, x}) = handSteps H - 1 := by
  have h4 := hhand.count_le
  have hlt := card_le_of_count_le h4
  have h5 : ∀ y, H.count y ≤ 5 := fun y => by have := h4 y; omega
  have hle : ({x, x} : Multiset Kind) ≤ H := Multiset.le_count_iff_replicate_le.mp hx
  have hcard : (H - {x, x}).card = 3 * k + 2 := by
    rw [Multiset.card_sub hle, Multiset.card_pair]
    omega
  have hgroup : x ::ₘ {x, x} ∈ {m | IsGroup m} := Or.inl ⟨x, rfl⟩
  have hclaim : handDist k (H - {x, x}) + 1 = handDist (k + 1) (H - {x, x} + {x, x}) ↔ _ :=
    Exchange.dist_add_one_eq_iff (k := k) groups_nonempty pairs_nonempty hgroup (H - {x, x})
  rw [tsub_add_cancel_of_le hle] at hclaim
  rw [handSteps_eq h5 (Or.inl hH) (by omega),
    handSteps_eq (count_le_of_le tsub_le_self h5) (Or.inr hcard) (by omega)]
  have hcast : (handDist k (H - {x, x}) : ℤ) = handDist (k + 1) H - 1 ↔
      handDist k (H - {x, x}) + 1 = handDist (k + 1) H := by omega
  rw [hcast, hclaim]
  constructor
  · rintro ⟨W, hW, hmem, hmin⟩
    exact ⟨W, hW, (nearest_iff (hW.add_group hgroup)).mpr hmin, hmem⟩
  · rintro ⟨W, hW, hdist, hmem⟩
    exact ⟨W, hW, hmem, (nearest_iff (hW.add_group hgroup)).mp hdist⟩

/-- `Irb01` never claims a triplet. -/
theorem Irb01.wannaHGPE_pon_ne :
    (⟨p.Hand⟩ : Irb01).wannaHGPE false false true false (cardOf x) ≠ .pon := by
  have h4 := hhand.count_le
  have hlt := card_le_of_count_le h4
  have hcons : (x ::ₘ H).card = 3 * (k + 1) + 2 := by rw [Multiset.card_cons, hH]
  have hroom := h4 x
  have hwith := stepToHu1617_eq_handSteps (hhand.holds_handToTiles.addCard (k := x) (by omega))
    (count_cons_le h4 x) (Or.inr hcons) (by omega)
  have hwithout := stepToHu1617_eq_handSteps hhand.holds_handToTiles
    (fun y => by have := h4 y; omega) (Or.inl hH) (by omega)
  have hdraw := handSteps_cons h4 hH x
  have hle : ¬stepToHu1617 (handToTilesWith p.Hand (cardOf x)) >
      stepToHu1617 (handToTiles p.Hand) := by
    rw [handToTilesWith, hwith, hwithout]
    omega
  simp [Irb01.wannaHGPE, hle]

/-- `Irb00` claims a triplet exactly when the claim is a step forward. -/
theorem wannaHGPE_pon_iff (hx : 2 ≤ H.count x) :
    (p.wannaHGPE false true false (cardOf x)).1 = .pon ↔
      handSteps (H - {x, x}) = handSteps H - 1 := by
  have hle : ({x, x} : Multiset Kind) ≤ H := Multiset.le_count_iff_replicate_le.mp hx
  have hlaw := handSteps_sub_pair hhand.count_le hH hle (c := x) (Or.inl ⟨x, rfl⟩)
  have hpon := ponOrNot_eq hhand hH hx
  by_cases hlt : handSteps (H - {x, x}) < handSteps H
  · simp only [Irb00.wannaHGPE, hpon, hlt]
    simp only [Bool.false_eq_true, if_false, false_and, decide_true, and_self, if_true, true_iff]
    omega
  · simp only [Irb00.wannaHGPE, hpon, hlt]
    simp only [Bool.false_eq_true, if_false, false_and, decide_false, and_false, reduceCtorEq,
      false_iff]
    omega

/-- **The two bots** agree on a triplet claim exactly when no nearest complete hand waits for
it. -/
theorem pon_agree_iff (hx : 2 ≤ H.count x) : PonAgree p H x ↔ ¬TripletWaits k H x := by
  have hne := Irb01.wannaHGPE_pon_ne (x := x) hhand hH
  have hpon := wannaHGPE_pon_iff hhand hH hx
  rw [tripletWaits_iff hhand hH hx, ← hpon, PonAgree]
  constructor
  · rintro ⟨hsame, -⟩ hclaim
    exact hne (hsame.mpr hclaim)
  · intro hno
    exact ⟨⟨fun h => absurd h hne, fun h => absurd h hno⟩, hpon⟩

end Pon

/-- Two copies and two lone tiles. -/
def twoCopies : MJCards :=
  (MJCards.make false).addCards ([0, 0, 9, 13].map cardOf)

theorem counts_twoCopies : twoCopies.Counts (0 + ([0, 0, 9, 13] : List Kind)) :=
  counts_make_false.addCards (by decide)

/-- For two copies and two lone tiles the nearest complete hand waits for the third copy. -/
theorem pon_agree_iff_pair :
    PonAgree (playerWith twoCopies) (0 + ([0, 0, 9, 13] : List Kind)) 0 ↔
      ¬TripletWaits 0 (0 + ([0, 0, 9, 13] : List Kind)) 0 :=
  pon_agree_iff (p := playerWith twoCopies) counts_twoCopies rfl (by decide)

/-- Without the condition this fails: `Irb00` claims the third copy, `Irb01` does
not. -/
theorem not_pon_agree :
    ¬ ∀ (k : ℕ) (p : Irb00) (H : Multiset Kind) (x : Kind), p.Hand.Counts H → 1 ≤ k →
      H.card = 3 * k + 1 → 2 ≤ H.count x → PonAgree p H x := by
  intro h
  have hagree := (h 1 (playerWith twoCopies) _ 0 counts_twoCopies le_rfl rfl (by decide)).1
  have h00 : ((playerWith twoCopies).wannaHGPE false true false (cardOf 0)).1 = .pon := by
    decide +kernel
  have h01 : (⟨(playerWith twoCopies).Hand⟩ : Irb01).wannaHGPE false false true false
      (cardOf 0) = .none := by
    decide +kernel
  rw [h00, h01] at hagree
  exact absurd (hagree.mpr rfl) (by decide)

end MahjongAI
