import Mathlib.Data.List.Find
import MahjongAI.Hands
import MahjongAI.StepToHu

/-!
# The One-Move Law

How the step count changes with one move, and what follows for the functions that compare
step counts by equality. Through `stepToHu1617_eq_handDist` the law is the law of the
exchange distance: a tile helps by at most one, and setting a part of a group aside costs
what the group lacks.

## Main results

* `handSteps_cons`, `handSteps_erase`, `handSteps_sub_pair`, `handSteps_sub_replicate`: a
  draw, a throw, a claim of two tiles and a kong.
* `oneMoveLaw`: the four together with the decisions of `t1`, `numOfImprove`, `ponOrNot`,
  `eatOrNot` and `gonOrNot`, stated with `≤` and `<` where the source tests equality.
* `exists_few_copies_iff`: some kind always improves the hand, and when one of which the
  hand has fewer than four copies does; `not_exists_few_copies`: not always.
-/

open Packed

namespace MahjongAI

/-- The step count of a hand. -/
def handSteps (H : Multiset Kind) : ℤ :=
  stepToHu1617 (packHand H)

section Laws

variable {k : ℕ} {H : Multiset Kind}

theorem handSteps_eq (h5 : ∀ x, H.count x ≤ 5) (hH : H.card = 3 * k + 1 ∨ H.card = 3 * k + 2)
    (hlt : H.card < 150) : handSteps H = handDist k H :=
  stepToHu1617_eq_handDist (holds_packHand fun x => by have := h5 x; omega) hH hlt

/-- A part of a hand has no more copies than the hand. -/
theorem count_le_of_le {H' : Multiset Kind} {n : ℕ} (hle : H' ≤ H) (h : ∀ x, H.count x ≤ n)
    (x : Kind) : H'.count x ≤ n :=
  (Multiset.le_iff_count.mp hle x).trans (h x)

/-- One more tile makes at most five copies. -/
theorem count_cons_le (h4 : ∀ x, H.count x ≤ 4) (x y : Kind) : (x ::ₘ H).count y ≤ 5 := by
  have := h4 y
  rw [Multiset.count_cons]
  split <;> omega

/-- The step count of packed words is the step count of the hand they hold. -/
theorem stepToHu1617_eq_handSteps {T : Tiles} (h : T.Holds H) (h5 : ∀ x, H.count x ≤ 5)
    (hH : H.card = 3 * k + 1 ∨ H.card = 3 * k + 2) (hlt : H.card < 150) :
    stepToHu1617 T = handSteps H := by
  rw [handSteps_eq h5 hH hlt, stepToHu1617_eq_handDist h hH hlt]

/-- **A draw** keeps the step count or lowers it by one. -/
theorem handSteps_cons (h4 : ∀ x, H.count x ≤ 4) (hH : H.card = 3 * k + 1) (x : Kind) :
    handSteps (x ::ₘ H) = handSteps H ∨ handSteps (x ::ₘ H) = handSteps H - 1 := by
  have hcard := card_le_of_count_le h4
  rw [handSteps_eq (k := k) (count_cons_le h4 x) (by rw [Multiset.card_cons]; omega)
      (by rw [Multiset.card_cons]; omega),
    handSteps_eq (fun y => by have := h4 y; omega) (Or.inl hH) (by omega)]
  have h : handDist k (x ::ₘ H) = handDist k H ∨ handDist k (x ::ₘ H) + 1 = handDist k H :=
    Exchange.dist_cons_eq_or groups_nonempty pairs_nonempty H x
  omega

/-- **A throw** keeps the step count or raises it by one. -/
theorem handSteps_erase (h4 : ∀ x, H.count x ≤ 4) (hH : H.card = 3 * k + 2) {x : Kind}
    (hx : x ∈ H) :
    handSteps (H.erase x) = handSteps H ∨ handSteps (H.erase x) = handSteps H + 1 := by
  have hcard : (H.erase x).card = 3 * k + 1 := by
    rw [Multiset.card_erase_of_mem hx, hH]
    rfl
  have h := handSteps_cons (count_le_of_le (Multiset.erase_le x H) h4) hcard x
  rw [Multiset.cons_erase hx] at h
  omega

/-- **A claim**: two tiles that make a group with the claimed one help by at most one. -/
theorem handSteps_sub_pair (h4 : ∀ x, H.count x ≤ 4) (hH : H.card = 3 * k + 1) {a b c : Kind}
    (hab : {a, b} ≤ H) (hgroup : IsGroup {a, b, c}) :
    handSteps H - 1 ≤ handSteps (H - {a, b}) := by
  have hlt := card_le_of_count_le h4
  have h5 : ∀ x, H.count x ≤ 5 := fun x => by have := h4 x; omega
  have hpair := Multiset.card_le_card hab
  rw [Multiset.card_pair] at hpair
  obtain ⟨k, rfl⟩ : ∃ k', k = k' + 1 := ⟨k - 1, by omega⟩
  have hcard : (H - {a, b}).card = 3 * k + 2 := by
    rw [Multiset.card_sub hab, Multiset.card_pair]
    omega
  rw [handSteps_eq h5 (Or.inl hH) (by omega),
    handSteps_eq (count_le_of_le tsub_le_self h5) (Or.inr hcard) (by omega)]
  have h : handDist (k + 1) (H - {a, b} + {a, b}) ≤
      handDist k (H - {a, b}) + ({a, b, c} - {a, b} : Multiset Kind).card :=
    Exchange.dist_succ_le groups_nonempty pairs_nonempty hgroup _ _
  have hone : ({a, b, c} - {a, b} : Multiset Kind).card = 1 := by
    rw [Multiset.card_sub (by simp)]
    rfl
  rw [tsub_add_cancel_of_le hab, hone] at h
  omega

/-- **A kong** of four concealed tiles never helps. -/
theorem handSteps_sub_replicate (h4 : ∀ x, H.count x ≤ 4) (hH : H.card = 3 * k + 2)
    {x : Kind} (hx : H.count x = 4) :
    handSteps H ≤ handSteps (H - Multiset.replicate 4 x) := by
  have hlt := card_le_of_count_le h4
  have h5 : ∀ x, H.count x ≤ 5 := fun x => by have := h4 x; omega
  have hle : Multiset.replicate 4 x ≤ H := Multiset.le_count_iff_replicate_le.mp hx.ge
  have hfour := Multiset.card_le_card hle
  rw [Multiset.card_replicate] at hfour
  obtain ⟨k, rfl⟩ : ∃ k', k = k' + 1 := ⟨k - 1, by omega⟩
  have hcard : (H - Multiset.replicate 4 x).card = 3 * k + 1 := by
    rw [Multiset.card_sub hle, Multiset.card_replicate]
    omega
  rw [handSteps_eq h5 (Or.inr hH) (by omega),
    handSteps_eq (count_le_of_le tsub_le_self h5) (Or.inl hcard) (by omega)]
  -- three of the four tiles are a group, the fourth is given up
  have hthree : H - Multiset.replicate 4 x + {x, x, x} ≤ H := by
    calc H - Multiset.replicate 4 x + {x, x, x}
        ≤ H - Multiset.replicate 4 x + Multiset.replicate 4 x := by
          gcongr
          exact Multiset.replicate_le_replicate x |>.mpr (by norm_num : 3 ≤ 4)
      _ = H := tsub_add_cancel_of_le hle
  have hgroup : ({x, x, x} : Multiset Kind) ∈ {m | IsGroup m} := Or.inl ⟨x, rfl⟩
  have h : handDist (k + 1) (H - Multiset.replicate 4 x + {x, x, x}) ≤
      handDist k (H - Multiset.replicate 4 x) + ({x, x, x} - {x, x, x} : Multiset Kind).card :=
    Exchange.dist_succ_le groups_nonempty pairs_nonempty hgroup _ _
  have hanti : handDist (k + 1) H ≤ _ :=
    Exchange.dist_anti (k := k + 1) groups_nonempty pairs_nonempty hthree
  rw [tsub_self, Multiset.card_zero, add_zero] at h
  exact_mod_cast hanti.trans h

end Laws

/-! ### The decisions -/

/-- The candidate for throwing a kind. -/
def candidateOf (stepToHu : ℤ) (x : Kind) : CandidateThrow :=
  ⟨stepToHu, 0, Fin.ofNat 4 (x.val / 9), x.val % 9⟩

/-- The kinds of the hand whose removal does not raise the step count, in order. -/
def keepers (H : Multiset Kind) : List Kind :=
  (List.finRange 34).filter fun x => x ∈ H ∧ handSteps (H.erase x) ≤ handSteps H

/-- `T1` keeps the candidates whose removal does not raise the step count. -/
theorem t1_eq_candidates {k : ℕ} {T : Tiles} {H : Multiset Kind} (h : T.Holds H)
    (h4 : ∀ x, H.count x ≤ 4) (hH : H.card = 3 * k + 2) :
    t1 T (stepToHu1617 T) = (keepers H).map (candidateOf (stepToHu1617 T)) := by
  have hlt := card_le_of_count_le h4
  have h5 : ∀ x, H.count x ≤ 5 := fun x => by have := h4 x; omega
  have hT := stepToHu1617_eq_handSteps h h5 (Or.inr hH) (by omega)
  have htest : ∀ x : Kind, (field 3 (T.tiles (Fin.ofNat 4 (x.val / 9))) (x.val % 9) ≠ 0 ∧
      stepToHu1617 (T.subCell (Fin.ofNat 4 (x.val / 9)) (x.val % 9)) = stepToHu1617 T) ↔
      x ∈ H ∧ handSteps (H.erase x) ≤ handSteps H := by
    intro x
    have hget : field 3 (T.tiles (Fin.ofNat 4 (x.val / 9))) (x.val % 9) = H.count x :=
      h.get_eq x
    rw [hget, Ne, Nat.cast_eq_zero, Multiset.count_eq_zero, not_not]
    refine and_congr_right fun hx => ?_
    have hcard : (H.erase x).card = 3 * k + 1 := by
      rw [Multiset.card_erase_of_mem hx, hH]
      rfl
    rw [← T.subCard_cardOf, stepToHu1617_eq_handSteps (h.subCard hx)
      (count_le_of_le (Multiset.erase_le x H) h5) (Or.inl hcard) (by omega), hT]
    rcases handSteps_erase h4 hH hx with h | h <;> omega
  have hsplit : ∀ l : List Kind, (l.filterMap fun x =>
      if field 3 (T.tiles (Fin.ofNat 4 (x.val / 9))) (x.val % 9) ≠ 0 ∧
        stepToHu1617 (T.subCell (Fin.ofNat 4 (x.val / 9)) (x.val % 9)) = stepToHu1617 T then
        some (⟨stepToHu1617 T, 0, Fin.ofNat 4 (x.val / 9), x.val % 9⟩ : CandidateThrow)
      else none) =
      (l.filter fun x => x ∈ H ∧ handSteps (H.erase x) ≤ handSteps H).map
        (candidateOf (stepToHu1617 T)) := by
    intro l
    induction l with
    | nil => rfl
    | cons x l ih =>
        rw [List.filterMap_cons, List.filter_cons]
        by_cases hx : x ∈ H ∧ handSteps (H.erase x) ≤ handSteps H
        · rw [if_pos ((htest x).mpr hx), if_pos (decide_eq_true hx), List.map_cons, ih]
          rfl
        · rw [if_neg (mt (htest x).mp hx), if_neg (by simpa using hx)]
          exact ih
  rw [t1, cells_eq, List.filterMap_map]
  exact hsplit _

/-- `T1` throws: the tiles of the hand whose removal does not raise the step count. -/
theorem t1_eq {k : ℕ} {T : Tiles} {H : Multiset Kind} (h : T.Holds H)
    (h4 : ∀ x, H.count x ≤ 4) (hH : H.card = 3 * k + 2) :
    (t1 T (stepToHu1617 T)).map (fun c => tileToCard c.color c.value) =
      ((List.finRange 34).filter fun x =>
        x ∈ H ∧ handSteps (H.erase x) ≤ handSteps H).map cardOf := by
  rw [t1_eq_candidates h h4 hH, List.map_map]
  rfl

/-- `NumOfImprove` counts the remaining tiles of all kinds that lower the step count. -/
theorem numOfImprove_eq {k : ℕ} {T : Tiles} {H : Multiset Kind} (h : T.Holds H)
    (h4 : ∀ x, H.count x ≤ 4) (hH : H.card = 3 * k + 1) (remainTiles : Tiles) :
    numOfImprove T remainTiles (stepToHu1617 T) =
      ((List.finRange 34).map fun x =>
        if handSteps (x ::ₘ H) < handSteps H then remainTiles.get x else 0).sum := by
  have hlt := card_le_of_count_le h4
  have h5 : ∀ x, H.count x ≤ 5 := fun x => by have := h4 x; omega
  have hT := stepToHu1617_eq_handSteps h h5 (Or.inl hH) (by omega)
  rw [numOfImprove, cells_eq, List.map_map]
  refine congrArg List.sum (List.map_congr_left fun x _ => ?_)
  have hx5 := count_cons_le h4 x
  have hcard : (x ::ₘ H).card = 3 * k + 2 := by rw [Multiset.card_cons, hH]
  have hstep : stepToHu1617 (T.addCell (Fin.ofNat 4 (x.val / 9)) (x.val % 9)) =
      stepToHu1617 T - 1 ↔ handSteps (x ::ₘ H) < handSteps H := by
    have hroom := h4 x
    rw [← T.addCard_cardOf, stepToHu1617_eq_handSteps (h.addCard (by omega)) hx5 (Or.inr hcard)
      (by omega), hT]
    rcases handSteps_cons h4 hH x with h | h <;> omega
  have hget : field 3 (remainTiles.tiles (Fin.ofNat 4 (x.val / 9))) (x.val % 9) =
      remainTiles.get x := rfl
  simp only [Function.comp_apply, hstep, hget]
  by_cases himp : handSteps (x ::ₘ H) < handSteps H
  · by_cases hzero : remainTiles.get x = 0
    · rw [if_neg fun hand => hand.1 hzero, if_pos himp, hzero]
    · rw [if_pos ⟨hzero, himp⟩, if_pos himp]
  · rw [if_neg fun hand => himp hand.2, if_neg himp]

/-- Setting two tiles of a group aside is tested by equality and means an improvement. -/
theorem claim_test {k : ℕ} {T : Tiles} {H : Multiset Kind} (h : T.Holds H)
    (h4 : ∀ x, H.count x ≤ 4) (hH : H.card = 3 * k + 1) {a b c : Kind} (hab : {a, b} ≤ H)
    (hgroup : IsGroup {a, b, c}) :
    stepToHu1617 ((T.subCard (cardOf a)).subCard (cardOf b)) = stepToHu1617 T - 1 ↔
      handSteps (H - {a, b}) < handSteps H := by
  have hlt := card_le_of_count_le h4
  have h5 : ∀ x, H.count x ≤ 5 := fun x => by have := h4 x; omega
  have hpair := Multiset.card_le_card hab
  rw [Multiset.card_pair] at hpair
  have ha : a ∈ H := Multiset.mem_of_le hab (by simp)
  have hb : b ∈ H.erase a := by
    have hsub : ({b} : Multiset Kind) ≤ H - {a} := by
      rw [le_tsub_iff_left (Multiset.singleton_le.mpr ha)]
      exact hab
    simpa using hsub
  have hsub : (H.erase a).erase b = H - {a, b} := by
    rw [← Multiset.sub_singleton, ← Multiset.sub_singleton, tsub_tsub]
    rfl
  have hcard : (H - {a, b}).card = 3 * (k - 1) + 2 := by
    rw [Multiset.card_sub hab, Multiset.card_pair]
    omega
  have hT' := (h.subCard ha).subCard hb
  rw [hsub] at hT'
  have hlaw := handSteps_sub_pair h4 hH hab hgroup
  rw [stepToHu1617_eq_handSteps hT' (count_le_of_le tsub_le_self h5) (Or.inr hcard) (by omega),
    stepToHu1617_eq_handSteps h h5 (Or.inl hH) (by omega)]
  omega

/-- `PonOrNot` claims exactly when the claim lowers the step count. -/
theorem ponOrNot_eq {k : ℕ} {p : Irb00} {H : Multiset Kind} (h : p.Hand.Counts H)
    (hH : H.card = 3 * k + 1) {x : Kind} (hx : 2 ≤ H.count x) :
    p.ponOrNot (cardOf x) = decide (handSteps (H - {x, x}) < handSteps H) := by
  have hle : ({x, x} : Multiset Kind) ≤ H := Multiset.le_count_iff_replicate_le.mp hx
  have htest := claim_test (c := x) h.holds_handToTiles h.count_le hH hle (Or.inl ⟨x, rfl⟩)
  simp only [Irb00.ponOrNot, htest]

/-- Setting the tiles `S` of the hand aside for a claim is a step forward. -/
def Improves (H S : Multiset Kind) : Prop :=
  S ≤ H ∧ handSteps (H - S) < handSteps H

/-- The two tiles that make a run with the claimed tile `x`, which is the bottom (`d = 2`),
the middle (`d = 1`) or the top (`d = 0`) of that run. -/
def EatOption (x : Kind) (d : ℤ) (S : Multiset Kind) : Prop :=
  (d = 2 ∧ RunStart x ∧ S = {x + 1, x + 2}) ∨
  (d = 1 ∧ ∃ y, RunStart y ∧ x = y + 1 ∧ S = {y, y + 2}) ∨
  (d = 0 ∧ ∃ y, RunStart y ∧ x = y + 2 ∧ S = {y, y + 1})

/-- One trial of `EatOrNot` on two tiles of a run. -/
theorem eatTrial_iff {k : ℕ} {p : Irb00} {H : Multiset Kind} (h : p.Hand.Counts H)
    (hH : H.card = 3 * k + 1) {a b c : Kind} (hab : a ≠ b) (hgroup : IsGroup {a, b, c}) :
    p.eatTrial (cardOf a) (cardOf b) = true ↔
      {a, b} ≤ H ∧ handSteps (H - {a, b}) < handSteps H := by
  have hle : ({a, b} : Multiset Kind) ≤ H ↔ 1 ≤ H.count a ∧ 1 ≤ H.count b := by
    rw [Multiset.one_le_count_iff_mem, Multiset.one_le_count_iff_mem]
    constructor
    · exact fun hle => ⟨Multiset.mem_of_le hle (by simp), Multiset.mem_of_le hle (by simp)⟩
    · rintro ⟨ha, hb⟩
      refine (Multiset.le_iff_subset ?_).mpr ?_
      · simpa using hab
      · intro z hz
        have hz : z = a ∨ z = b := by simpa using hz
        rcases hz with rfl | rfl
        · exact ha
        · exact hb
  rw [Irb00.eatTrial]
  rw [h.count_eq, h.count_eq, decide_eq_true_iff, ← and_assoc]
  have hcount : ((1 : ℤ) ≤ H.count a ∧ (1 : ℤ) ≤ H.count b) ↔ {a, b} ≤ H := by
    rw [hle]
    norm_cast
  rw [hcount]
  refine and_congr_right fun hab' => ?_
  exact claim_test h.holds_handToTiles h.count_le hH hab' hgroup

/-- The tiles of a run, seen from each of its tiles. -/
theorem tile_of_run {y : Kind} (hy : RunStart y) :
    (⟨(cardOf y).color, (cardOf y).value + 1⟩ : MJCard) = cardOf (y + 1) ∧
    (⟨(cardOf y).color, (cardOf y).value + 2⟩ : MJCard) = cardOf (y + 2) ∧
    (⟨(cardOf (y + 1)).color, (cardOf (y + 1)).value + -1⟩ : MJCard) = cardOf y ∧
    (⟨(cardOf (y + 1)).color, (cardOf (y + 1)).value + 1⟩ : MJCard) = cardOf (y + 2) ∧
    (⟨(cardOf (y + 2)).color, (cardOf (y + 2)).value + -1⟩ : MJCard) = cardOf (y + 1) ∧
    (⟨(cardOf (y + 2)).color, (cardOf (y + 2)).value + -2⟩ : MJCard) = cardOf y := by
  revert y
  decide +kernel

/-- The colour and the value of a suited kind. -/
theorem cardOf_suited : ∀ x : Kind, x.val < 27 →
    (cardOf x).color = (x.val / 9 : ℕ) ∧ (cardOf x).value = (x.val % 9 : ℕ) := by
  decide +kernel

/-- The places a tile can take in a run, by its rank. -/
theorem run_places : ∀ x : Kind, x.val < 27 →
    ((∃ y, RunStart y ∧ x = y + 1) ↔ 1 ≤ x.val % 9 ∧ x.val % 9 ≤ 7) ∧
      ((∃ y, RunStart y ∧ x = y + 2) ↔ 2 ≤ x.val % 9) := by
  decide +kernel

/-- The tiles of a run are different. -/
theorem run_distinct : ∀ y : Kind, y + 2 ≠ y + 1 ∧ y ≠ y + 2 ∧ y ≠ y + 1 := by
  decide

theorem kind_add_inj : ∀ y y' : Kind, (y + 1 = y' + 1 → y = y') ∧ (y + 2 = y' + 2 → y = y') := by
  decide +kernel

/-! The claimed tile as the bottom, the middle and the top of a run. -/

theorem eatOption_two {y : Kind} (hy : RunStart y) {S : Multiset Kind} :
    EatOption y 2 S ↔ S = {y + 1, y + 2} := by
  constructor
  · rintro (⟨-, -, rfl⟩ | ⟨hd, -⟩ | ⟨hd, -⟩)
    · rfl
    · omega
    · omega
  · exact fun hS => Or.inl ⟨rfl, hy, hS⟩

theorem eatOption_one {y : Kind} (hy : RunStart y) {S : Multiset Kind} :
    EatOption (y + 1) 1 S ↔ S = {y, y + 2} := by
  constructor
  · rintro (⟨hd, -⟩ | ⟨-, y', -, hy', rfl⟩ | ⟨hd, -⟩)
    · omega
    · rw [(kind_add_inj y y').1 hy']
    · omega
  · exact fun hS => Or.inr (Or.inl ⟨rfl, y, hy, rfl, hS⟩)

theorem eatOption_zero {y : Kind} (hy : RunStart y) {S : Multiset Kind} :
    EatOption (y + 2) 0 S ↔ S = {y, y + 1} := by
  constructor
  · rintro (⟨hd, -⟩ | ⟨hd, -⟩ | ⟨-, y', -, hy', rfl⟩)
    · omega
    · omega
    · rw [(kind_add_inj y y').2 hy']
  · exact fun hS => Or.inr (Or.inr ⟨rfl, y, hy, rfl, hS⟩)

/-- A run claim needs the place of the tile in the run. -/
theorem EatOption.place {x : Kind} {d : ℤ} {S : Multiset Kind} (h : EatOption x d S) :
    (d = 2 ∧ RunStart x) ∨ (d = 1 ∧ ∃ y, RunStart y ∧ x = y + 1) ∨
      (d = 0 ∧ ∃ y, RunStart y ∧ x = y + 2) := by
  rcases h with ⟨hd, hx, -⟩ | ⟨hd, y, hy, hxy, -⟩ | ⟨hd, y, hy, hxy, -⟩
  · exact Or.inl ⟨hd, hx⟩
  · exact Or.inr (Or.inl ⟨hd, y, hy, hxy⟩)
  · exact Or.inr (Or.inr ⟨hd, y, hy, hxy⟩)

section Eat

variable {k : ℕ} {p : Irb00} {H : Multiset Kind} (h : p.Hand.Counts H) (hH : H.card = 3 * k + 1)

/-- Some run in which the claimed tile has the place `d` improves the hand. -/
def EatPays (H : Multiset Kind) (x : Kind) (d : ℤ) : Prop :=
  ∃ S, EatOption x d S ∧ Improves H S

include h hH

/-- The trial in which the claimed tile is the bottom of the run. -/
theorem eatTrial_bottom {y : Kind} (hy : RunStart y) :
    p.eatTrial ⟨(cardOf y).color, (cardOf y).value + 2⟩
        ⟨(cardOf y).color, (cardOf y).value + 1⟩ = true ↔ EatPays H y 2 := by
  obtain ⟨h1, h2, -⟩ := tile_of_run hy
  have hgroup : IsGroup {y + 2, y + 1, y} := by
    refine Or.inr ⟨y, hy, Multiset.ext.mpr fun z => ?_⟩
    simp only [Multiset.insert_eq_cons, Multiset.count_cons, Multiset.count_singleton]
    omega
  rw [h1, h2, eatTrial_iff h hH (run_distinct y).1 hgroup, Multiset.pair_comm]
  simp only [EatPays, eatOption_two hy, exists_eq_left]
  rfl

/-- The trial in which the claimed tile is the middle of the run. -/
theorem eatTrial_middle {y : Kind} (hy : RunStart y) :
    p.eatTrial ⟨(cardOf (y + 1)).color, (cardOf (y + 1)).value + -1⟩
        ⟨(cardOf (y + 1)).color, (cardOf (y + 1)).value + 1⟩ = true ↔
      EatPays H (y + 1) 1 := by
  obtain ⟨-, -, h1, h2, -⟩ := tile_of_run hy
  have hgroup : IsGroup {y, y + 2, y + 1} := by
    refine Or.inr ⟨y, hy, Multiset.ext.mpr fun z => ?_⟩
    simp only [Multiset.insert_eq_cons, Multiset.count_cons, Multiset.count_singleton]
    omega
  rw [h1, h2, eatTrial_iff h hH (run_distinct y).2.1 hgroup]
  simp only [EatPays, eatOption_one hy, exists_eq_left]
  rfl

/-- The trial in which the claimed tile is the top of the run. -/
theorem eatTrial_top {y : Kind} (hy : RunStart y) :
    p.eatTrial ⟨(cardOf (y + 2)).color, (cardOf (y + 2)).value + -2⟩
        ⟨(cardOf (y + 2)).color, (cardOf (y + 2)).value + -1⟩ = true ↔
      EatPays H (y + 2) 0 := by
  obtain ⟨-, -, -, -, h1, h2⟩ := tile_of_run hy
  have hgroup : IsGroup {y, y + 1, y + 2} := Or.inr ⟨y, hy, rfl⟩
  rw [h1, h2, eatTrial_iff h hH (run_distinct y).2.2 hgroup]
  simp only [EatPays, eatOption_zero hy, exists_eq_left]
  rfl

/-- The untested claim of the lowest tile of a suit. -/
theorem eatEnd_bottom {y : Kind} (hy : RunStart y) (hle : {y + 1, y + 2} ≤ H) :
    stepToHu1617 (((handToTiles p.Hand).subCard
        ⟨(cardOf y).color, (cardOf y).value + 1⟩).subCard
        ⟨(cardOf y).color, (cardOf y).value + 2⟩) = stepToHu1617 (handToTiles p.Hand) - 1 ↔
      EatPays H y 2 := by
  obtain ⟨h1, h2, -⟩ := tile_of_run hy
  have hgroup : IsGroup {y + 1, y + 2, y} := by
    refine Or.inr ⟨y, hy, Multiset.ext.mpr fun z => ?_⟩
    simp only [Multiset.insert_eq_cons, Multiset.count_cons, Multiset.count_singleton]
    omega
  rw [h1, h2, claim_test h.holds_handToTiles h.count_le hH hle hgroup]
  simp only [EatPays, eatOption_two hy, exists_eq_left, Improves, hle, true_and]

/-- The untested claim of the highest tile of a suit. -/
theorem eatEnd_top {y : Kind} (hy : RunStart y) (hle : {y, y + 1} ≤ H) :
    stepToHu1617 (((handToTiles p.Hand).subCard
        ⟨(cardOf (y + 2)).color, (cardOf (y + 2)).value + -1⟩).subCard
        ⟨(cardOf (y + 2)).color, (cardOf (y + 2)).value + -2⟩) =
          stepToHu1617 (handToTiles p.Hand) - 1 ↔
      EatPays H (y + 2) 0 := by
  obtain ⟨-, -, -, -, h1, h2⟩ := tile_of_run hy
  have hgroup : IsGroup {y + 1, y, y + 2} := by
    refine Or.inr ⟨y, hy, Multiset.ext.mpr fun z => ?_⟩
    simp only [Multiset.insert_eq_cons, Multiset.count_cons, Multiset.count_singleton]
    omega
  rw [Multiset.pair_comm] at hle
  rw [h1, h2, claim_test h.holds_handToTiles h.count_le hH hle hgroup]
  rw [Multiset.pair_comm] at hle ⊢
  simp only [EatPays, eatOption_zero hy, exists_eq_left, Improves, hle, true_and]

open Classical in
/-- **The run claim.** `EatOrNot` tries the places of the claimed tile in the order middle,
bottom, top, and takes the first that pays. At the ends of a suit it trusts the offer: the
hand must have the two tiles of the only run. -/
theorem eatOrNot_eq {x : Kind} (hx : x.val < 27) (hoffer : ∃ d S, EatOption x d S ∧ S ≤ H) :
    p.eatOrNot (cardOf x) =
      if EatPays H x 1 then (true, 1)
      else if EatPays H x 2 then (true, 2)
      else if EatPays H x 0 then (true, 0)
      else (false, -1) := by
  obtain ⟨hcolor, hvalue⟩ := cardOf_suited x hx
  obtain ⟨hmiddle, htop⟩ := run_places x hx
  have hcol : ¬((cardOf x).color > 2 ∨ (cardOf x).color = -1) := by omega
  have hno : ∀ {d : ℤ}, (∀ S, ¬EatOption x d S) → ¬EatPays H x d := fun hd ⟨S, hS, _⟩ =>
    hd S hS
  have hno2 : ¬x.val % 9 ≤ 6 → ¬EatPays H x 2 := fun hr => hno fun S hS => by
    rcases hS.place with ⟨-, hs⟩ | ⟨hd, -⟩ | ⟨hd, -⟩
    · exact hr hs.2
    · omega
    · omega
  have hno1 : ¬(1 ≤ x.val % 9 ∧ x.val % 9 ≤ 7) → ¬EatPays H x 1 := fun hr => hno fun S hS => by
    rcases hS.place with ⟨hd, -⟩ | ⟨-, hs⟩ | ⟨hd, -⟩
    · omega
    · exact hr (hmiddle.mp hs)
    · omega
  have hno0 : ¬2 ≤ x.val % 9 → ¬EatPays H x 0 := fun hr => hno fun S hS => by
    rcases hS.place with ⟨hd, -⟩ | ⟨hd, -⟩ | ⟨-, hs⟩
    · omega
    · omega
    · exact hr (htop.mp hs)
  have hbottom : x.val % 9 ≤ 6 → _ := fun hr => eatTrial_bottom h hH (y := x) ⟨hx, hr⟩
  have hmid : 1 ≤ x.val % 9 ∧ x.val % 9 ≤ 7 →
      (p.eatTrial ⟨(cardOf x).color, (cardOf x).value + -1⟩
        ⟨(cardOf x).color, (cardOf x).value + 1⟩ = true ↔ EatPays H x 1) := by
    intro hr
    obtain ⟨y, hy, rfl⟩ := hmiddle.mpr hr
    exact eatTrial_middle h hH hy
  have htop' : 2 ≤ x.val % 9 →
      (p.eatTrial ⟨(cardOf x).color, (cardOf x).value + -2⟩
        ⟨(cardOf x).color, (cardOf x).value + -1⟩ = true ↔ EatPays H x 0) := by
    intro hr
    obtain ⟨y, hy, rfl⟩ := htop.mpr hr
    exact eatTrial_top h hH hy
  rw [Irb00.eatOrNot]
  simp only [if_neg hcol]
  obtain ⟨d₀, S₀, hopt₀, hle₀⟩ := hoffer
  by_cases h0 : (cardOf x).value = 0
  · have hs : RunStart x := ⟨hx, by omega⟩
    have hle : {x + 1, x + 2} ≤ H := by
      rcases hopt₀ with ⟨-, -, rfl⟩ | ⟨-, y, hy, hxy, -⟩ | ⟨-, y, hy, hxy, -⟩
      · exact hle₀
      · have := hmiddle.mp ⟨y, hy, hxy⟩
        omega
      · have := htop.mp ⟨y, hy, hxy⟩
        omega
    simp only [if_pos h0, eatEnd_bottom h hH hs hle, if_neg (hno1 (by omega)),
      if_neg (hno0 (by omega))]
  rw [if_neg h0]
  by_cases h8 : (cardOf x).value = 8
  · obtain ⟨y, hy, rfl⟩ := htop.mpr (by omega)
    have hle : {y, y + 1} ≤ H := by
      rcases hopt₀ with ⟨-, hs, -⟩ | ⟨-, y', hy', hxy, -⟩ | ⟨-, y', -, hxy, rfl⟩
      · have := hs.2
        omega
      · have := hmiddle.mp ⟨y', hy', hxy⟩
        omega
      · rwa [(kind_add_inj y y').2 hxy]
    simp only [if_pos h8, eatEnd_top h hH hy hle, if_neg (hno1 (by omega)),
      if_neg (hno2 (by omega))]
  rw [if_neg h8]
  by_cases h1 : (cardOf x).value = 1
  · simp only [if_pos h1, hmid (by omega), hbottom (by omega), if_neg (hno0 (by omega))]
  rw [if_neg h1]
  by_cases h7 : (cardOf x).value = 7
  · simp only [if_pos h7, hmid (by omega), htop' (by omega), if_neg (hno2 (by omega))]
  rw [if_neg h7]
  simp only [hmid (by omega), htop' (by omega), hbottom (by omega)]

end Eat

/-! ### The kong -/

/-- Declaring a kong of `y` does not raise the step count: the last tile of a melded
triplet leaves the hand alone, a concealed kong with its four copies. -/
def GonKeeps (H : Multiset Kind) (y : Kind) : Prop :=
  (H.count y = 1 ∧ handSteps (H.erase y) ≤ handSteps H) ∨
    (H.count y = 4 ∧ handSteps (H - Multiset.replicate 4 y) ≤ handSteps H)

theorem gonKeeps_iff_of_one {H : Multiset Kind} {y : Kind} (h : H.count y = 1) :
    GonKeeps H y ↔ handSteps (H.erase y) ≤ handSteps H := by
  constructor
  · rintro (⟨-, hle⟩ | ⟨hfour, -⟩)
    · exact hle
    · omega
  · exact fun hle => Or.inl ⟨h, hle⟩

theorem gonKeeps_iff_of_four {H : Multiset Kind} {y : Kind} (h : H.count y = 4) :
    GonKeeps H y ↔ handSteps (H - Multiset.replicate 4 y) ≤ handSteps H := by
  constructor
  · rintro (⟨hone, -⟩ | ⟨-, hle⟩)
    · omega
    · exact hle
  · exact fun hle => Or.inr ⟨h, hle⟩

/-- Taking a tile four times. -/
theorem Tiles.Holds.subCard_four {T : Tiles} {H : Multiset Kind} (h : T.Holds H) {y : Kind}
    (hy : H.count y = 4) :
    ((((T.subCard (cardOf y)).subCard (cardOf y)).subCard (cardOf y)).subCard
      (cardOf y)).Holds (H - Multiset.replicate 4 y) := by
  have hmem : ∀ {H : Multiset Kind}, 0 < H.count y → y ∈ H := Multiset.count_pos.mp
  have h1 := h.subCard (hmem (by omega))
  have h2 := h1.subCard (hmem (by rw [Multiset.count_erase_self]; omega))
  have h3 := h2.subCard (hmem (by simp only [Multiset.count_erase_self]; omega))
  have h4 := h3.subCard (hmem (by simp only [Multiset.count_erase_self]; omega))
  simpa [Multiset.replicate_succ, Multiset.sub_cons] using h4

/-- Every tile of the table is the tile of a kind. -/
theorem exists_cardOf_of_mem_gonCards : ∀ c ∈ Irb00.gonCards, ∃ y : Kind, c = cardOf y := by
  decide +kernel

open Classical in
/-- **The kong decision.** `GonOrNot` declares the first kong on its list that does not
raise the step count. -/
theorem gonOrNot_eq {k : ℕ} {p : Irb00} {H : Multiset Kind} (h : p.Hand.Counts H)
    (hH : H.card = 3 * k + 1) {x : Kind} (hx : H.count x < 4) :
    p.gonOrNot (cardOf x) true =
      match (p.allYouCanGon (cardOf x)).find?
        fun c => ∃ y, c = cardOf y ∧ GonKeeps (x ::ₘ H) y with
      | some c => some (true, c)
      | none => some (false, ⟨-10, -10⟩) := by
  have hcons := h.addCard hx
  have h4 := hcons.count_le
  have hlt := card_le_of_count_le h4
  have h5 : ∀ y, (x ::ₘ H).count y ≤ 5 := fun y => by have := h4 y; omega
  have hcard : (x ::ₘ H).card = 3 * k + 2 := by rw [Multiset.card_cons, hH]
  have hT : (handToTilesWith p.Hand (cardOf x)).Holds (x ::ₘ H) :=
    h.holds_handToTiles.addCard (by omega)
  have htin := stepToHu1617_eq_handSteps hT h5 (Or.inr hcard) (by omega)
  refine congrArg (fun r : Option MJCard => match r with
    | some c => some (true, c)
    | none => some (false, ⟨-10, -10⟩)) (List.find?_congr fun c hc => ?_)
  -- every tile on the list is the tile of a kind
  obtain ⟨y, rfl⟩ : ∃ y : Kind, c = cardOf y := by
    rw [Irb00.allYouCanGon] at hc
    rcases List.mem_append.mp hc with hc | hc
    · refine ⟨x, ?_⟩
      split_ifs at hc
      · exact List.mem_singleton.mp hc
      · exact List.mem_singleton.mp hc
      · exact absurd hc List.not_mem_nil
    · exact exists_cardOf_of_mem_gonCards c (List.mem_of_mem_filter hc)
  have hkeeps : (∃ z, cardOf y = cardOf z ∧ GonKeeps (x ::ₘ H) z) ↔ GonKeeps (x ::ₘ H) y := by
    simp only [cardOf_inj, exists_eq_left']
  rw [Bool.eq_iff_iff, decide_eq_true_iff, hkeeps, hcons.count_eq, htin]
  have hone : ((x ::ₘ H).count y : ℤ) = 1 ↔ (x ::ₘ H).count y = 1 := by norm_cast
  have hfour : ((x ::ₘ H).count y : ℤ) = 4 ↔ (x ::ₘ H).count y = 4 := by norm_cast
  by_cases h1 : (x ::ₘ H).count y = 1
  · have hy : y ∈ x ::ₘ H := Multiset.count_pos.mp (by omega)
    have hcard' : ((x ::ₘ H).erase y).card = 3 * k + 1 := by
      rw [Multiset.card_erase_of_mem hy, hcard]
      rfl
    rw [if_pos (hone.mpr h1), stepToHu1617_eq_handSteps (hT.subCard hy)
      (count_le_of_le (Multiset.erase_le y _) h5) (Or.inl hcard') (by omega)]
    have hlaw := handSteps_erase h4 hcard hy
    rw [decide_eq_true_iff, gonKeeps_iff_of_one h1]
    omega
  rw [if_neg (mt hone.mp h1)]
  by_cases h4' : (x ::ₘ H).count y = 4
  · have hle : Multiset.replicate 4 y ≤ x ::ₘ H := Multiset.le_count_iff_replicate_le.mp h4'.ge
    have hfour' := Multiset.card_le_card hle
    rw [Multiset.card_replicate] at hfour'
    have hcard' : (x ::ₘ H - Multiset.replicate 4 y).card = 3 * (k - 1) + 1 := by
      rw [Multiset.card_sub hle, Multiset.card_replicate]
      omega
    rw [if_pos (hfour.mpr h4'), stepToHu1617_eq_handSteps (hT.subCard_four h4')
      (count_le_of_le tsub_le_self h5) (Or.inl hcard') (by omega)]
    have hlaw := handSteps_sub_replicate h4 hcard h4'
    rw [decide_eq_true_iff, gonKeeps_iff_of_four h4']
    omega
  · rw [if_neg (mt hfour.mp h4')]
    simp [GonKeeps, h1, h4']

/-! ### The law -/

open Classical in
/-- **The one-move law** and the decisions it makes exact. The first four fields bound what
one move does to the step count; the others say that each equality test of the source
finds every case in which the step count is kept, or improved. -/
structure OneMoveLaw : Prop where
  draw : ∀ (k : ℕ) (H : Multiset Kind) (x : Kind), (∀ y, H.count y ≤ 4) →
    H.card = 3 * k + 1 →
    handSteps (x ::ₘ H) = handSteps H ∨ handSteps (x ::ₘ H) = handSteps H - 1
  throw : ∀ (k : ℕ) (H : Multiset Kind) (x : Kind), (∀ y, H.count y ≤ 4) →
    H.card = 3 * k + 2 → x ∈ H →
    handSteps (H.erase x) = handSteps H ∨ handSteps (H.erase x) = handSteps H + 1
  claim : ∀ (k : ℕ) (H : Multiset Kind) (a b c : Kind), (∀ y, H.count y ≤ 4) →
    H.card = 3 * k + 1 → {a, b} ≤ H → IsGroup {a, b, c} →
    handSteps H - 1 ≤ handSteps (H - {a, b})
  kong : ∀ (k : ℕ) (H : Multiset Kind) (x : Kind), (∀ y, H.count y ≤ 4) →
    H.card = 3 * k + 2 → H.count x = 4 →
    handSteps H ≤ handSteps (H - Multiset.replicate 4 x)
  t1 : ∀ (k : ℕ) (T : Tiles) (H : Multiset Kind), T.Holds H → (∀ y, H.count y ≤ 4) →
    H.card = 3 * k + 2 →
    (MahjongAI.t1 T (stepToHu1617 T)).map (fun c => tileToCard c.color c.value) =
      ((List.finRange 34).filter fun x =>
        x ∈ H ∧ handSteps (H.erase x) ≤ handSteps H).map cardOf
  numOfImprove : ∀ (k : ℕ) (T remainTiles : Tiles) (H : Multiset Kind), T.Holds H →
    (∀ y, H.count y ≤ 4) → H.card = 3 * k + 1 →
    MahjongAI.numOfImprove T remainTiles (stepToHu1617 T) =
      ((List.finRange 34).map fun x =>
        if handSteps (x ::ₘ H) < handSteps H then remainTiles.get x else 0).sum
  ponOrNot : ∀ (k : ℕ) (p : Irb00) (H : Multiset Kind) (x : Kind), p.Hand.Counts H →
    H.card = 3 * k + 1 → 2 ≤ H.count x →
    p.ponOrNot (cardOf x) = decide (handSteps (H - {x, x}) < handSteps H)
  eatOrNot : ∀ (k : ℕ) (p : Irb00) (H : Multiset Kind) (x : Kind), p.Hand.Counts H →
    H.card = 3 * k + 1 → x.val < 27 → (∃ d S, EatOption x d S ∧ S ≤ H) →
    p.eatOrNot (cardOf x) =
      if EatPays H x 1 then (true, 1)
      else if EatPays H x 2 then (true, 2)
      else if EatPays H x 0 then (true, 0)
      else (false, -1)
  gonOrNot : ∀ (k : ℕ) (p : Irb00) (H : Multiset Kind) (x : Kind), p.Hand.Counts H →
    H.card = 3 * k + 1 → H.count x < 4 →
    p.gonOrNot (cardOf x) true =
      match (p.allYouCanGon (cardOf x)).find?
        fun c => ∃ y, c = cardOf y ∧ GonKeeps (x ::ₘ H) y with
      | some c => some (true, c)
      | none => some (false, ⟨-10, -10⟩)

theorem oneMoveLaw : OneMoveLaw where
  draw _ _ x h4 hH := handSteps_cons h4 hH x
  throw _ _ _ h4 hH hx := handSteps_erase h4 hH hx
  claim _ _ _ _ _ h4 hH hab hgroup := handSteps_sub_pair h4 hH hab hgroup
  kong _ _ _ h4 hH hx := handSteps_sub_replicate h4 hH hx
  t1 _ _ _ h h4 hH := t1_eq h h4 hH
  numOfImprove _ _ remainTiles _ h h4 hH := numOfImprove_eq h h4 hH remainTiles
  ponOrNot _ _ _ _ h hH hx := ponOrNot_eq h hH hx
  eatOrNot _ _ _ _ h hH hx hoffer := eatOrNot_eq h hH hx hoffer
  gonOrNot _ _ _ _ h hH hx := gonOrNot_eq h hH hx

/-! ### The improving tiles and the four copies -/

/-- **The improving kinds.** A hand of `3 k + 1` tiles always has an improving kind. One of
which it has fewer than four copies improves it exactly when some nearest complete hand
lacks such a kind, in particular when the hand has no kind four times. -/
theorem exists_few_copies_iff {k : ℕ} {H : Multiset Kind} (h4 : ∀ x, H.count x ≤ 4)
    (hH : H.card = 3 * k + 1) :
    (∃ x, handSteps (x ::ₘ H) = handSteps H - 1) ∧
      ((∃ x, H.count x < 4 ∧ handSteps (x ::ₘ H) = handSteps H - 1) ↔
        ∃ W, CompleteHand k W ∧ ((W - H).card : ℤ) = handSteps H ∧
          ∃ x ∈ W - H, H.count x < 4) ∧
      ((∀ x, H.count x < 4) → ∃ x, H.count x < 4 ∧ handSteps (x ::ₘ H) = handSteps H - 1) := by
  have hlt := card_le_of_count_le h4
  have h5 : ∀ x, H.count x ≤ 5 := fun x => by have := h4 x; omega
  have hdist := handSteps_eq h5 (Or.inl hH) (by omega)
  have hcons : ∀ x, handSteps (x ::ₘ H) = handSteps H - 1 ↔
      handDist k (x ::ₘ H) + 1 = handDist k H := by
    intro x
    rw [handSteps_eq (k := k) (count_cons_le h4 x) (by rw [Multiset.card_cons]; omega)
      (by rw [Multiset.card_cons]; omega), hdist]
    omega
  have hpos : 0 < handDist k H := by
    refine Nat.pos_of_ne_zero fun hzero => ?_
    obtain ⟨W, hW, hle⟩ := (Exchange.dist_eq_zero_iff groups_nonempty pairs_nonempty).mp hzero
    have := CompleteHand.card hW
    have := Multiset.card_le_card hle
    omega
  have hex : ∃ x, handSteps (x ::ₘ H) = handSteps H - 1 := by
    obtain ⟨x, hx⟩ :=
      Exchange.exists_dist_cons_add_one (k := k) groups_nonempty pairs_nonempty hpos
    exact ⟨x, (hcons x).mpr hx⟩
  refine ⟨hex, ?_, fun hfew => ?_⟩
  · have himp := Exchange.dist_cons_add_one_iff (k := k) groups_nonempty pairs_nonempty H
    constructor
    · rintro ⟨x, hx, hstep⟩
      obtain ⟨W, hW, hcard, hmem⟩ := (himp x).mp ((hcons x).mp hstep)
      exact ⟨W, hW, by rw [hdist, hcard], x, hmem, hx⟩
    · rintro ⟨W, hW, hcard, x, hmem, hx⟩
      rw [hdist] at hcard
      exact ⟨x, hx, (hcons x).mpr ((himp x).mpr ⟨W, hW, by exact_mod_cast hcard, hmem⟩)⟩
  · obtain ⟨x, hx⟩ := hex
    exact ⟨x, hfew x, hx⟩

/-- A triplet and a lone tile wait for a kind of which they have fewer than four. -/
theorem exists_few_copies_iff_example :
    ∃ x : Kind, Multiset.count x {0, 0, 0, 1} < 4 ∧
      handSteps (x ::ₘ {0, 0, 0, 1}) = handSteps {0, 0, 0, 1} - 1 :=
  (exists_few_copies_iff (k := 1) (H := {0, 0, 0, 1}) (by decide) rfl).2.2 (by decide)

/-- One more tile of another kind does not make four of a kind a complete hand: a triplet
and a pair have no kind once, and a run and a pair have no kind four times. -/
theorem not_completeHand_four {x : Kind} (hx : x ≠ 0) :
    ¬CompleteHand 1 (x ::ₘ {0, 0, 0, 0}) := by
  rintro ⟨G, p, hG, hmem, ⟨y, rfl⟩, hsum⟩
  obtain ⟨m, rfl⟩ := Multiset.card_eq_one.mp hG
  have hzero := congrArg (Multiset.count 0) hsum
  have hself := congrArg (Multiset.count x) hsum
  have hne : ∀ z : Kind, z ≠ z + 1 ∧ z ≠ z + 2 ∧ z + 1 ≠ z + 2 := by decide
  rcases hmem m (Multiset.mem_singleton_self m) with ⟨z, rfl⟩ | ⟨z, -, rfl⟩
  · simp only [Multiset.sum_singleton, Multiset.insert_eq_cons, Multiset.count_add,
      Multiset.count_cons, Multiset.count_singleton, hx, if_true, if_false] at hself
    split_ifs at hself <;> omega
  · obtain ⟨h1, h2, h3⟩ := hne z
    simp only [Multiset.sum_singleton, Multiset.insert_eq_cons, Multiset.count_add,
      Multiset.count_cons, Multiset.count_singleton, hx.symm, if_true, if_false] at hzero
    grind

/-- Four of a kind alone are one step short, but only their fifth copy would help. -/
theorem not_exists_few_copies :
    ¬ ∀ (k : ℕ) (H : Multiset Kind), 1 ≤ k → (∀ x, H.count x ≤ 4) → H.card = 3 * k + 1 →
      ∃ x, H.count x < 4 ∧ handSteps (x ::ₘ H) = handSteps H - 1 := by
  intro h
  obtain ⟨x, hx, hstep⟩ := h 1 {0, 0, 0, 0} le_rfl (by decide) rfl
  have hne : x ≠ 0 := by
    rintro rfl
    exact absurd hx (by decide)
  have hfour : handSteps {0, 0, 0, 0} = 1 := by decide +kernel
  have h4 : ∀ y : Kind, Multiset.count y {0, 0, 0, 0} ≤ 4 := by decide
  rw [hfour, handSteps_eq (k := 1) (count_cons_le h4 x) (Or.inr rfl)
    (by rw [Multiset.card_cons]; decide)] at hstep
  have hzero : handDist 1 (x ::ₘ {0, 0, 0, 0}) = 0 := by omega
  obtain ⟨W, hW, hle⟩ := (Exchange.dist_eq_zero_iff groups_nonempty pairs_nonempty).mp hzero
  obtain rfl : W = x ::ₘ {0, 0, 0, 0} :=
    Multiset.eq_of_le_of_card_le hle (by rw [CompleteHand.card hW]; rfl)
  exact not_completeHand_four hne hW

end MahjongAI
