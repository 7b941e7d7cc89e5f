import MahjongAI.CardCounts
import MahjongAI.Decisions

/-!
# The Decisions with Their Loops in Place

The functions of `Irb00` try a move by changing the packed hand, counting its steps, and
changing it back. `Decisions` writes every trial on its own copy of the hand; here the
same functions stand with the loops as the source has them, one hand passed through all
the trials, and the hand that a function leaves behind is part of its result.

## Main results

* `foldl_restored`: a loop whose iterations change the state back leaves it, and works on
  the first state throughout.
* `throw_eq_inPlace`, `gonOrNot_eq_inPlace`, `wannaHuGon_eq_inPlace`,
  `eatOrNot_eq_inPlace`: the loops in place compute what the trials on copies compute, and
  leave the player as it was.
-/

open Packed

namespace MahjongAI

/-! ### Changing back -/

/-- A loop that changes its state back in every iteration leaves the state, and computes
what the iterations compute from the first state. -/
theorem foldl_restored {σ β γ : Type*} {step : σ × γ → β → σ × γ} {f : γ → β → γ} {s : σ}
    (h : ∀ acc b, step (s, acc) b = (s, f acc b)) (l : List β) (acc : γ) :
    l.foldl step (s, acc) = (s, l.foldl f acc) := by
  induction l generalizing acc with
  | nil => rfl
  | cons b l ih => rw [List.foldl_cons, h, ih, List.foldl_cons]

/-- A loop that appends what it finds finds what `filterMap` does. -/
theorem foldl_append_toList {α β : Type*} (f : α → Option β) (l : List α) (acc : List β) :
    l.foldl (fun acc a => acc ++ (f a).toList) acc = acc ++ l.filterMap f := by
  induction l generalizing acc with
  | nil => simp
  | cons a l ih =>
      rw [List.foldl_cons, ih, List.filterMap_cons]
      cases f a with
      | none => simp
      | some b => simp

/-- A loop that adds up computes a sum. -/
theorem foldl_add_eq_sum {α : Type*} (f : α → ℤ) (l : List α) (acc : ℤ) :
    l.foldl (fun acc a => acc + f a) acc = acc + (l.map f).sum := by
  induction l generalizing acc with
  | nil => simp
  | cons a l ih => rw [List.foldl_cons, ih, List.map_cons, List.sum_cons, add_assoc]

/-- One loop may map a list and fold over what it has mapped. -/
theorem foldl_map_with {α β γ : Type*} (f : α → β) (g : γ → β → γ) (l : List α)
    (acc : List β × γ) :
    l.foldl (fun acc a => (acc.1 ++ [f a], g acc.2 (f a))) acc =
      (acc.1 ++ l.map f, (l.map f).foldl g acc.2) := by
  induction l generalizing acc with
  | nil => simp
  | cons a l ih => simp [ih]

namespace Tiles

@[simp] theorem addCell_subCell (T : Tiles) (i : Fin 4) (j : ℕ) :
    (T.subCell i j).addCell i j = T := by
  cases T
  simp [addCell, subCell]

@[simp] theorem subCell_addCell (T : Tiles) (i : Fin 4) (j : ℕ) :
    (T.addCell i j).subCell i j = T := by
  cases T
  simp [addCell, subCell]

/-- Cells can be added and taken in any order. -/
theorem addCell_subCell_comm (T : Tiles) (i i' : Fin 4) (j j' : ℕ) :
    (T.subCell i' j').addCell i j = (T.addCell i j).subCell i' j' := by
  simp only [addCell, subCell, Tiles.mk.injEq]
  by_cases h : i = i'
  · subst h
    simp only [Function.update_self, Function.update_idem]
    congr 1
    omega
  · rw [Function.update_of_ne h, Function.update_of_ne (Ne.symm h), Function.update_comm h]

@[simp] theorem addCard_subCard (T : Tiles) (card : MJCard) :
    (T.subCard card).addCard card = T := by
  simp only [addCard, subCard]
  split_ifs <;> simp

/-- Tiles can be added and taken in any order. -/
theorem addCard_subCard_comm (T : Tiles) (a b : MJCard) :
    (T.subCard b).addCard a = (T.addCard a).subCard b := by
  simp only [addCard, subCard]
  split_ifs <;> first | rfl | exact addCell_subCell_comm _ _ _ _ _

/-- Two tiles put back in the order in which they were taken. -/
theorem addCard_pair (T : Tiles) (a b : MJCard) :
    (((T.subCard a).subCard b).addCard a).addCard b = T := by
  rw [addCard_subCard_comm (T.subCard a), addCard_subCard, addCard_subCard]

end Tiles

namespace MJCards

/-- Writing a word back. -/
theorem set_get_self (s : MJCards) (c : ℤ) (v : ℤ) :
    (s.set c v).set c (s.get c) = s := by
  cases s
  simp only [set, get]
  split_ifs <;> simp

/-- **A tile added with room and taken again** leaves the card set. -/
theorem subCard_addCard (s : MJCards) {card : MJCard} (hcard : card.Valid)
    (hroom : s.countCard card < fieldCap card.color) : (s.addCard card).subCard card = s := by
  have hpos : 0 < (s.addCard card).countCard card := by
    rw [countCard_addCard s hcard hcard hroom, if_pos rfl]
    have := countCard_nonneg s hcard
    omega
  rw [subCard_eq_set _ hcard hpos, addCard_eq_set s hcard hroom,
    get_set s hcard.1 hcard.2.1 hcard.1 hcard.2.1, if_pos rfl, add_sub_cancel_right,
    set_get_self]

end MJCards

namespace InPlace

/-! ### The throw -/

/-- One turn of the loops of `Irb00::T1`. -/
def t1Step (stepToHu : ℤ) : Tiles × List CandidateThrow → Fin 4 × ℕ →
    Tiles × List CandidateThrow
  | (Hand, Candidates), (i, j) =>
    if field 3 (Hand.tiles i) j ≠ 0 then
      let Hand := Hand.subCell i j
      let Candidates :=
        if stepToHu1617 Hand = stepToHu then Candidates ++ [⟨stepToHu, 0, i, j⟩]
        else Candidates
      (Hand.addCell i j, Candidates)
    else (Hand, Candidates)

/-- `Irb00::T1` on the hand it is given. -/
def t1 (Hand : Tiles) (stepToHu : ℤ) : Tiles × List CandidateThrow :=
  cells.foldl (t1Step stepToHu) (Hand, [])

/-- One turn of the loops of `Irb00::NumOfImprove`. -/
def numOfImproveStep (remainTiles : Tiles) (stepToHu : ℤ) : Tiles × ℤ → Fin 4 × ℕ → Tiles × ℤ
  | (Hand, ans), (i, j) =>
    if field 3 (remainTiles.tiles i) j ≠ 0 then
      let Hand := Hand.addCell i j
      let ans :=
        if stepToHu1617 Hand = stepToHu - 1 then ans + field 3 (remainTiles.tiles i) j else ans
      (Hand.subCell i j, ans)
    else (Hand, ans)

/-- `Irb00::NumOfImprove` on the hand it is given. -/
def numOfImprove (Hand remainTiles : Tiles) (stepToHu : ℤ) : Tiles × ℤ :=
  cells.foldl (numOfImproveStep remainTiles stepToHu) (Hand, 0)

/-- One turn of the first loop of `Irb00::T2`: it writes the candidate's `numOfImprove` and
keeps the greatest in `max`. -/
def t2Step (remainTiles : Tiles) (stepToHu : ℤ) : Tiles × List CandidateThrow × ℤ →
    CandidateThrow → Tiles × List CandidateThrow × ℤ
  | (Hand, scored, max), c =>
    let Hand := Hand.subCell c.color c.value
    let (Hand, temp) := numOfImprove Hand remainTiles stepToHu
    (Hand.addCell c.color c.value, scored ++ [{ c with numOfImprove := temp }],
      if max < temp then temp else max)

/-- `Irb00::T2` on the hand it is given. -/
def t2 (Hand remainTiles : Tiles) (stepToHu : ℤ) (Candidates : List CandidateThrow) :
    Tiles × List CandidateThrow :=
  let (Hand, scored, max) := Candidates.foldl (t2Step remainTiles stepToHu) (Hand, [], 0)
  (Hand, scored.filter fun c => c.numOfImprove = max)

/-- `Irb00::Throw`: the hand that `T1` has changed and changed back is the one that is
taken off the remaining tiles and passed to `T2`. -/
def throw (p : Irb00) (card : MJCard) : Option MJCard :=
  let Hand_ := p.throwHand card
  let stepToHu := stepToHu1617 Hand_
  let (Hand_, Candidates) := t1 Hand_ stepToHu
  match Candidates with
  | [c] => some (tileToCard c.color c.value)
  | Candidates =>
      let remainTiles : Tiles := ⟨fun i => if i = 3 then 0o4444444 else 0o444444444⟩
      let remainTiles := (remainTiles.sub Hand_).sub (handToTiles p.discards)
      match (t2 Hand_ remainTiles stepToHu Candidates).2 with
      | [] => none
      | c :: rest =>
          if (c :: rest).length < 20 then some (tileToCard c.color c.value)
          else some ⟨0, 0⟩

/-- `T1` leaves the hand and finds the candidates. -/
theorem t1_eq_inPlace (Hand : Tiles) (stepToHu : ℤ) :
    t1 Hand stepToHu = (Hand, MahjongAI.t1 Hand stepToHu) := by
  have hstep : ∀ (acc : List CandidateThrow) (b : Fin 4 × ℕ),
      t1Step stepToHu (Hand, acc) b = (Hand, acc ++ (if field 3 (Hand.tiles b.1) b.2 ≠ 0 ∧
        stepToHu1617 (Hand.subCell b.1 b.2) = stepToHu then
          some (⟨stepToHu, 0, b.1, b.2⟩ : CandidateThrow) else none).toList) := by
    rintro acc ⟨i, j⟩
    by_cases hcell : field 3 (Hand.tiles i) j ≠ 0
    · by_cases hkeep : stepToHu1617 (Hand.subCell i j) = stepToHu
      · simp [t1Step, hcell, hkeep]
      · simp [t1Step, hcell, hkeep]
    · simp [t1Step, hcell]
  rw [t1, foldl_restored hstep, foldl_append_toList]
  rfl

/-- `NumOfImprove` leaves the hand and counts the improving tiles. -/
theorem numOfImprove_eq_inPlace (Hand remainTiles : Tiles) (stepToHu : ℤ) :
    numOfImprove Hand remainTiles stepToHu =
      (Hand, MahjongAI.numOfImprove Hand remainTiles stepToHu) := by
  have hstep : ∀ (ans : ℤ) (b : Fin 4 × ℕ), numOfImproveStep remainTiles stepToHu (Hand, ans) b =
      (Hand, ans + if field 3 (remainTiles.tiles b.1) b.2 ≠ 0 ∧
        stepToHu1617 (Hand.addCell b.1 b.2) = stepToHu - 1 then
          field 3 (remainTiles.tiles b.1) b.2 else 0) := by
    rintro ans ⟨i, j⟩
    by_cases hcell : field 3 (remainTiles.tiles i) j ≠ 0
    · by_cases himp : stepToHu1617 (Hand.addCell i j) = stepToHu - 1
      · simp [numOfImproveStep, hcell, himp]
      · simp [numOfImproveStep, hcell, himp]
    · simp [numOfImproveStep, hcell]
  rw [numOfImprove, foldl_restored hstep, foldl_add_eq_sum, zero_add]
  rfl

/-- A candidate with its score. -/
def scored (Hand remainTiles : Tiles) (stepToHu : ℤ) (c : CandidateThrow) : CandidateThrow :=
  { c with
    numOfImprove :=
      MahjongAI.numOfImprove (Hand.subCell c.color c.value) remainTiles stepToHu }

/-- `T2` leaves the hand and scores every candidate on it. -/
theorem t2_eq_inPlace (Hand remainTiles : Tiles) (stepToHu : ℤ)
    (Candidates : List CandidateThrow) :
    t2 Hand remainTiles stepToHu Candidates =
      (Hand, MahjongAI.t2 Hand remainTiles stepToHu Candidates) := by
  have hstep : ∀ (acc : List CandidateThrow × ℤ) (c : CandidateThrow),
      t2Step remainTiles stepToHu (Hand, acc) c =
        (Hand, acc.1 ++ [scored Hand remainTiles stepToHu c],
          if acc.2 < (scored Hand remainTiles stepToHu c).numOfImprove then
            (scored Hand remainTiles stepToHu c).numOfImprove else acc.2) := by
    rintro ⟨before, max⟩ c
    simp only [t2Step, numOfImprove_eq_inPlace, Tiles.addCell_subCell]
    rfl
  have hmap := foldl_map_with (scored Hand remainTiles stepToHu)
    (fun m c => if m < c.numOfImprove then c.numOfImprove else m) Candidates ([], 0)
  rw [t2, foldl_restored hstep, hmap]
  rfl

/-- **`Throw` in place** throws what the trials on copies throw. -/
theorem throw_eq_inPlace (p : Irb00) (card : MJCard) : throw p card = p.throw card := by
  delta throw Irb00.throw
  simp only [t1_eq_inPlace, t2_eq_inPlace]
  generalize MahjongAI.t1 (p.throwHand card) (stepToHu1617 (p.throwHand card)) = Candidates
  rcases Candidates with _ | ⟨c, _ | ⟨c', rest⟩⟩
  · rfl
  · rfl
  · rfl

/-! ### The claims -/

/-- The loop of `Irb00::GonOrNot` over the candidates, with the drawn tile in `Hand`. -/
def gonLoop (card : MJCard) (tin : ℤ) : List MJCard → Irb00 → Tiles → (Bool × MJCard) × Irb00
  | [], p, _ => ((false, ⟨-10, -10⟩), { p with Hand := p.Hand.subCard card })
  | c :: gonArr, p, Hand_ =>
    if p.Hand.countCard c = 1 then
      let Hand_ := Hand_.subCard c
      if stepToHu1617 Hand_ = tin then ((true, c), { p with Hand := p.Hand.subCard card })
      else gonLoop card tin gonArr p (Hand_.addCard c)
    else if p.Hand.countCard c = 4 then
      let Hand_ := (((Hand_.subCard c).subCard c).subCard c).subCard c
      if stepToHu1617 Hand_ = tin then ((true, c), { p with Hand := p.Hand.subCard card })
      else gonLoop card tin gonArr p ((((Hand_.addCard c).addCard c).addCard c).addCard c)
    else gonLoop card tin gonArr p Hand_

/-- `Irb00::GonOrNot`, with the player it leaves behind. -/
def gonOrNot (p : Irb00) (card : MJCard) (zimo : Bool) : Option (Bool × MJCard) × Irb00 :=
  let Hand_ := handToTilesWith p.Hand card
  let tin := stepToHu1617 Hand_
  if zimo then
    let gonArr := p.allYouCanGon card
    let (result, p) := gonLoop card tin gonArr { p with Hand := p.Hand.addCard card } Hand_
    (some result, p)
  else (none, p)

/-- `Irb00::WannaHuGon`, with the player it leaves behind. The last branch prints an error
and falls off the end of the function, with the drawn tile still in `Hand`. -/
def wannaHuGon (p : Irb00) (canHu canGon : Bool) (card : MJCard) :
    Option (CommandType × MJCard) × Irb00 :=
  if canHu then (some (.zimo, card), p)
  else if canGon then
    match gonOrNot p card true with
    | (none, p) => (none, p)
    | (some (false, _), p) => ((throw p card).map fun c => (.none, c), p)
    | (some (true, c), p) =>
        let p := { p with Hand := p.Hand.addCard card }
        if p.Hand.countCard c = 1 then
          (some (.ponGon, c), { p with Hand := p.Hand.subCard card })
        else if p.Hand.countCard c = 4 then
          (some (.anGon, c), { p with Hand := p.Hand.subCard card })
        else (none, p)
  else ((throw p card).map fun c => (.none, c), p)

/-- One trial of `Irb00::EatOrNot`, which goes on to `next` with the hand it has changed
back. -/
def eatTrial (p : Irb00) (tin : ℤ) (a b : MJCard) (i : ℤ) (next : Tiles → Bool × ℤ)
    (Hand_ : Tiles) : Bool × ℤ :=
  if 1 ≤ p.Hand.countCard a ∧ 1 ≤ p.Hand.countCard b then
    let Hand_ := (Hand_.subCard a).subCard b
    if stepToHu1617 Hand_ = tin - 1 then (true, i)
    else next ((Hand_.addCard a).addCard b)
  else next Hand_

/-- `Irb00::EatOrNot`. -/
def eatOrNot (p : Irb00) (card : MJCard) : Bool × ℤ :=
  let Hand_ := handToTiles p.Hand
  let tin := stepToHu1617 Hand_
  let tile (d : ℤ) : MJCard := ⟨card.color, card.value + d⟩
  let no (_ : Tiles) : Bool × ℤ := (false, -1)
  if card.color > 2 ∨ card.color = -1 then no Hand_
  else if card.value = 0 then
    let Hand_ := (Hand_.subCard (tile 1)).subCard (tile 2)
    if stepToHu1617 Hand_ = tin - 1 then (true, 2) else no Hand_
  else if card.value = 8 then
    let Hand_ := (Hand_.subCard (tile (-1))).subCard (tile (-2))
    if stepToHu1617 Hand_ = tin - 1 then (true, 0) else no Hand_
  else if card.value = 1 then
    eatTrial p tin (tile (-1)) (tile 1) 1 (eatTrial p tin (tile 2) (tile 1) 2 no) Hand_
  else if card.value = 7 then
    eatTrial p tin (tile (-1)) (tile 1) 1 (eatTrial p tin (tile (-2)) (tile (-1)) 0 no) Hand_
  else
    eatTrial p tin (tile (-1)) (tile 1) 1
      (eatTrial p tin (tile 2) (tile 1) 2 (eatTrial p tin (tile (-2)) (tile (-1)) 0 no)) Hand_

/-- The loop over the kongs finds the first that keeps the step count, and takes the drawn
tile from the hand again on each of its ways out. -/
theorem gonLoop_eq (card : MJCard) (tin : ℤ) (gonArr : List MJCard) (p : Irb00)
    (Hand_ : Tiles) :
    gonLoop card tin gonArr p Hand_ =
      (match gonArr.find? (fun c =>
          if p.Hand.countCard c = 1 then stepToHu1617 (Hand_.subCard c) = tin
          else if p.Hand.countCard c = 4 then
            stepToHu1617 ((((Hand_.subCard c).subCard c).subCard c).subCard c) = tin
          else false) with
        | some c => (true, c)
        | none => (false, ⟨-10, -10⟩), { p with Hand := p.Hand.subCard card }) := by
  induction gonArr with
  | nil => rfl
  | cons c gonArr ih =>
      rw [gonLoop, List.find?_cons]
      by_cases hone : p.Hand.countCard c = 1
      · by_cases hkeep : stepToHu1617 (Hand_.subCard c) = tin
        · simp [hone, hkeep]
        · simp [hone, hkeep, ih]
      · by_cases hfour : p.Hand.countCard c = 4
        · by_cases hkeep :
            stepToHu1617 ((((Hand_.subCard c).subCard c).subCard c).subCard c) = tin
          · simp [hfour, hkeep]
          · simp [hfour, hkeep, ih]
        · simp [hone, hfour, ih]

/-- **`GonOrNot` in place**, for a drawn tile with room in the hand: it finds what the
trials on copies find and leaves the player as it was. -/
theorem gonOrNot_eq_inPlace (p : Irb00) {card : MJCard} (hcard : card.Valid)
    (hroom : p.Hand.countCard card < fieldCap card.color) (zimo : Bool) :
    gonOrNot p card zimo = (p.gonOrNot card zimo, p) := by
  cases zimo with
  | false => rfl
  | true =>
      simp only [gonOrNot, Irb00.gonOrNot, gonLoop_eq, if_true,
        MJCards.subCard_addCard p.Hand hcard hroom]
      cases List.find? _ (p.allYouCanGon card) <;> rfl

/-- **`WannaHuGon` in place**, for a drawn tile with room in the hand: it answers as the
trials on copies do, and where it reaches a return statement it leaves the player as it
was. -/
theorem wannaHuGon_eq_inPlace (p : Irb00) (canHu canGon : Bool) {card : MJCard}
    (hcard : card.Valid) (hroom : p.Hand.countCard card < fieldCap card.color) :
    (wannaHuGon p canHu canGon card).1 = p.wannaHuGon canHu canGon card ∧
      ((wannaHuGon p canHu canGon card).1.isSome → (wannaHuGon p canHu canGon card).2 = p) := by
  have hsame := MJCards.subCard_addCard p.Hand hcard hroom
  cases canHu with
  | true => exact ⟨rfl, fun _ => rfl⟩
  | false =>
      cases canGon with
      | false => exact ⟨by simp [wannaHuGon, Irb00.wannaHuGon, throw_eq_inPlace], fun _ => rfl⟩
      | true =>
          simp only [wannaHuGon, Irb00.wannaHuGon, gonOrNot_eq_inPlace p hcard hroom,
            throw_eq_inPlace, Bool.false_eq_true, if_false, if_true]
          rcases p.gonOrNot card true with _ | ⟨_ | _, c⟩
          · exact ⟨rfl, fun _ => rfl⟩
          · exact ⟨rfl, fun _ => rfl⟩
          · by_cases hone : (p.Hand.addCard card).countCard c = 1
            · simp [hone, hsame]
            · by_cases hfour : (p.Hand.addCard card).countCard c = 4
              · simp [hfour, hsame]
              · simp [hone, hfour]

/-- One trial on the hand that the trials before it have changed back. -/
theorem eatTrial_eq_inPlace (p : Irb00) (a b : MJCard) (i : ℤ) (next : Tiles → Bool × ℤ) :
    eatTrial p (stepToHu1617 (handToTiles p.Hand)) a b i next (handToTiles p.Hand) =
      if p.eatTrial a b then (true, i) else next (handToTiles p.Hand) := by
  have htrial : p.eatTrial a b = true ↔ (1 ≤ p.Hand.countCard a ∧ 1 ≤ p.Hand.countCard b) ∧
      stepToHu1617 (((handToTiles p.Hand).subCard a).subCard b) =
        stepToHu1617 (handToTiles p.Hand) - 1 := by
    rw [Irb00.eatTrial, decide_eq_true_iff, and_assoc]
  simp only [eatTrial, Tiles.addCard_pair, htrial]
  by_cases hcount : 1 ≤ p.Hand.countCard a ∧ 1 ≤ p.Hand.countCard b
  · simp only [hcount, true_and, and_self, if_true]
  · rw [if_neg hcount, if_neg fun h => hcount h.1]

/-- **`EatOrNot` in place** answers as the trials on copies do. -/
theorem eatOrNot_eq_inPlace (p : Irb00) (card : MJCard) :
    eatOrNot p card = p.eatOrNot card := by
  simp only [eatOrNot, Irb00.eatOrNot, eatTrial_eq_inPlace]

end InPlace

end MahjongAI
