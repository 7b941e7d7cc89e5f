import MahjongAI.Search

/-!
# The Decisions of the Bot

The functions of `Irb00` that turn the step count into moves. `throw` picks a tile to
throw: `t1` keeps the tiles whose removal leaves the step count as it is, `t2` those among
them after which the most of the remaining tiles would improve the hand (`numOfImprove`).
`gonOrNot`, `ponOrNot` and `eatOrNot` test whether a kong, a triplet claim or a run claim
pays, and `wannaHuGon` and `wannaHGPE` answer the two kinds of command requests.

The source changes its local hand and changes it back around every trial; the trials are
written here on the changed hand directly. A result of `none` stands for a call that reads
a vector at an index it does not have, or falls off the end of a function.
-/

open Packed

namespace MahjongAI

namespace Tiles

/-- `T.tiles[i] += 1 << (j * 3)`. -/
def addCell (T : Tiles) (i : Fin 4) (j : ℕ) : Tiles :=
  ⟨Function.update T.tiles i (T.tiles i + unit 3 j)⟩

/-- `T.tiles[i] -= 1 << (j * 3)`. -/
def subCell (T : Tiles) (i : Fin 4) (j : ℕ) : Tiles :=
  ⟨Function.update T.tiles i (T.tiles i - unit 3 j)⟩

/-- `Tiles_::operator-=(const Tiles_&)`. -/
def sub (T t : Tiles) : Tiles :=
  ⟨fun i => T.tiles i - t.tiles i⟩

/-- `Tiles_::operator+=(const MJCard&)`: dragons live above the winds in the last word. -/
def addCard (T : Tiles) (card : MJCard) : Tiles :=
  if 0 ≤ card.color ∧ card.color ≤ 2 then
    T.addCell (Fin.ofNat 4 card.color.toNat) card.value.toNat
  else if card.color = 3 then T.addCell 3 (card.value.toNat + 4)
  else if card.color = 4 then T.addCell 3 card.value.toNat
  else T

/-- `Tiles_::operator-=(const MJCard&)`. -/
def subCard (T : Tiles) (card : MJCard) : Tiles :=
  if 0 ≤ card.color ∧ card.color ≤ 2 then
    T.subCell (Fin.ofNat 4 card.color.toNat) card.value.toNat
  else if card.color = 3 then T.subCell 3 (card.value.toNat + 4)
  else if card.color = 4 then T.subCell 3 card.value.toNat
  else T

end Tiles

/-- `Irb00::HandToTiles(const MJCards&)`. -/
def handToTiles (cards : MJCards) : Tiles :=
  ⟨fun i =>
    if i = 3 then cards.cfbCards <<< (12 : ℕ) + cards.windsCards
    else (cards.mjcolor (Fin.ofNat 3 i.val)).value⟩

/-- `Irb00::HandToTiles(const MJCards&, const MJCard&)`. -/
def handToTilesWith (cards : MJCards) (card : MJCard) : Tiles :=
  (handToTiles cards).addCard card

/-- `Irb00::TileToCard`. -/
def tileToCard (color : Fin 4) (value : ℕ) : MJCard :=
  if color = 3 then
    if value ≤ 3 then ⟨4, value⟩ else ⟨3, (value : ℤ) - 4⟩
  else ⟨color.val, value⟩

/-- The cells that the double loops over `i < 4` and `j < 9` visit: the loop over the
honours ends at its seventh cell. -/
def cells : List (Fin 4 × ℕ) :=
  (List.finRange 4).flatMap fun i =>
    ((List.range 9).takeWhile fun j => ¬(i = 3 ∧ 7 ≤ j)).map fun j => (i, j)

/-- `Irb00::CandidateThrow`. -/
structure CandidateThrow where
  stepToHu : ℤ
  numOfImprove : ℤ
  color : Fin 4
  value : ℕ
  deriving DecidableEq, Repr

/-- `Irb00::T1`: the tiles of the hand that can be thrown without losing a step. -/
def t1 (Hand : Tiles) (stepToHu : ℤ) : List CandidateThrow :=
  cells.filterMap fun (i, j) =>
    if field 3 (Hand.tiles i) j ≠ 0 ∧ stepToHu1617 (Hand.subCell i j) = stepToHu then
      some ⟨stepToHu, 0, i, j⟩
    else none

/-- `Irb00::NumOfImprove`: how many of the remaining tiles improve the hand. -/
def numOfImprove (Hand remainTiles : Tiles) (stepToHu : ℤ) : ℤ :=
  (cells.map fun (i, j) =>
    if field 3 (remainTiles.tiles i) j ≠ 0 ∧
        stepToHu1617 (Hand.addCell i j) = stepToHu - 1 then
      field 3 (remainTiles.tiles i) j
    else 0).sum

/-- `Irb00::T2`: the candidates after which the most remaining tiles improve the hand. -/
def t2 (Hand remainTiles : Tiles) (stepToHu : ℤ) (Candidates : List CandidateThrow) :
    List CandidateThrow :=
  let scored := Candidates.map fun c =>
    { c with
      numOfImprove := numOfImprove (Hand.subCell c.color c.value) remainTiles stepToHu }
  let max := scored.foldl (fun m c => if m < c.numOfImprove then c.numOfImprove else m) 0
  scored.filter fun c => c.numOfImprove = max

/-- `CardTo34`: the bit of a kind in the meld masks. -/
def cardTo34 (card : MJCard) : BitVec 64 :=
  if card.color = 0 then 1 <<< card.value.toNat
  else if card.color = 1 then 1 <<< (9 + card.value.toNat)
  else if card.color = 2 then 1 <<< (18 + card.value.toNat)
  else if card.color = 3 then 1 <<< (27 + card.value.toNat)
  else if card.color = 4 then 1 <<< (30 + card.value.toNat)
  else -1

/-- `CommandType`. -/
inductive CommandType
  | none | pon | gon | anGon | ponGon | hu | zimo | eat
  deriving DecidableEq, Repr

/-- The bits of the command words. -/
def CommandType.code : CommandType → ℕ
  | .none => 0b0000000
  | .pon => 0b0000001
  | .gon => 0b0000010
  | .anGon => 0b0000100
  | .ponGon => 0b0001000
  | .hu => 0b0010000
  | .zimo => 0b0100000
  | .eat => 0b1000000

/-- `Irb00` with the fields of `Player` that it reads or that the handlers write. -/
structure Irb00 where
  Hand : MJCards
  discards : MJCards
  eat : BitVec 64
  pon : BitVec 64
  gon : BitVec 64
  anGon : BitVec 64
  id : ℤ
  pickToEat : ℤ

/-- The default argument of `Irb00::Throw`. -/
def noCard : MJCard := ⟨-100, -100⟩

namespace Irb00

/-- The local `Hand_` of `Irb00::Throw`: the hand that is analysed. -/
def throwHand (p : Irb00) (card : MJCard) : Tiles :=
  if card.color = -100 then handToTiles p.Hand else handToTilesWith p.Hand card

/-- The local `remainTiles` of `Irb00::Throw`: four of each kind, less the analysed hand
and the discards. -/
def remainTiles (p : Irb00) (card : MJCard) : Tiles :=
  let remainTiles : Tiles := ⟨fun i => if i = 3 then 0o4444444 else 0o444444444⟩
  (remainTiles.sub (p.throwHand card)).sub (handToTiles p.discards)

/-- `Irb00::Throw`. -/
def throw (p : Irb00) (card : MJCard) : Option MJCard :=
  let Hand_ := p.throwHand card
  let stepToHu := stepToHu1617 Hand_
  match t1 Hand_ stepToHu with
  | [c] => some (tileToCard c.color c.value)
  | Candidates =>
      match t2 Hand_ (p.remainTiles card) stepToHu Candidates with
      | [] => none
      | c :: rest =>
          if (c :: rest).length < 20 then some (tileToCard c.color c.value)
          else some ⟨0, 0⟩

/-- The kinds of the table, in the order `AllYouCanGon` goes through them. -/
def gonCards : List MJCard :=
  ((List.range 3).flatMap fun i : ℕ => (List.range 9).map fun j : ℕ => ⟨i, j⟩) ++
    ((List.range 3).map fun i : ℕ => ⟨3, i⟩) ++ (List.range 4).map fun i : ℕ => ⟨4, i⟩

/-- `Irb00::AllYouCanGon`. -/
def allYouCanGon (p : Irb00) (card : MJCard) : List MJCard :=
  (if p.Hand.countCard card = 3 then [card]
    else if p.pon &&& cardTo34 card ≠ 0 then [card] else []) ++
  gonCards.filter fun c =>
    p.Hand.countCard c = 4 ∨ p.Hand.countCard c = 1 ∧ p.pon &&& cardTo34 c ≠ 0

/-- `Irb00::GonOrNot`: the first kong that leaves the step count as it is. Without `zimo`
the source has no return statement. -/
def gonOrNot (p : Irb00) (card : MJCard) (zimo : Bool) : Option (Bool × MJCard) :=
  let Hand_ := handToTilesWith p.Hand card
  let tin := stepToHu1617 Hand_
  if zimo then
    let Hand := p.Hand.addCard card
    let keeps (c : MJCard) : Bool :=
      if Hand.countCard c = 1 then stepToHu1617 (Hand_.subCard c) = tin
      else if Hand.countCard c = 4 then
        stepToHu1617 ((((Hand_.subCard c).subCard c).subCard c).subCard c) = tin
      else false
    match (p.allYouCanGon card).find? keeps with
    | some c => some (true, c)
    | none => some (false, ⟨-10, -10⟩)
  else none

/-- `Irb00::PonOrNot`. -/
def ponOrNot (p : Irb00) (card : MJCard) : Bool :=
  let Hand_ := handToTiles p.Hand
  let tin := stepToHu1617 Hand_
  decide (stepToHu1617 ((Hand_.subCard card).subCard card) = tin - 1)

/-- One trial of `Irb00::EatOrNot`: the two tiles of the run are in the hand, and setting
them aside is a step forward. -/
def eatTrial (p : Irb00) (a b : MJCard) : Bool :=
  decide (1 ≤ p.Hand.countCard a ∧ 1 ≤ p.Hand.countCard b ∧
    stepToHu1617 (((handToTiles p.Hand).subCard a).subCard b) =
      stepToHu1617 (handToTiles p.Hand) - 1)

/-- `Irb00::EatOrNot`: whether to claim the tile for a run, and its place in the run
counted from the top. The ends of a suit have one run each and are not looked up. -/
def eatOrNot (p : Irb00) (card : MJCard) : Bool × ℤ :=
  let Hand_ := handToTiles p.Hand
  let tin := stepToHu1617 Hand_
  let tile (d : ℤ) : MJCard := ⟨card.color, card.value + d⟩
  if card.color > 2 ∨ card.color = -1 then (false, -1)
  else if card.value = 0 then
    if stepToHu1617 ((Hand_.subCard (tile 1)).subCard (tile 2)) = tin - 1 then (true, 2)
    else (false, -1)
  else if card.value = 8 then
    if stepToHu1617 ((Hand_.subCard (tile (-1))).subCard (tile (-2))) = tin - 1 then (true, 0)
    else (false, -1)
  else if card.value = 1 then
    if p.eatTrial (tile (-1)) (tile 1) then (true, 1)
    else if p.eatTrial (tile 2) (tile 1) then (true, 2)
    else (false, -1)
  else if card.value = 7 then
    if p.eatTrial (tile (-1)) (tile 1) then (true, 1)
    else if p.eatTrial (tile (-2)) (tile (-1)) then (true, 0)
    else (false, -1)
  else
    if p.eatTrial (tile (-1)) (tile 1) then (true, 1)
    else if p.eatTrial (tile 2) (tile 1) then (true, 2)
    else if p.eatTrial (tile (-2)) (tile (-1)) then (true, 0)
    else (false, -1)

/-- `Irb00::WannaHuGon`. -/
def wannaHuGon (p : Irb00) (canHu canGon : Bool) (card : MJCard) :
    Option (CommandType × MJCard) :=
  if canHu then some (.zimo, card)
  else if canGon then
    match p.gonOrNot card true with
    | none => none
    | some (false, _) => (p.throw card).map fun c => (.none, c)
    | some (true, c) =>
        let Hand := p.Hand.addCard card
        if Hand.countCard c = 1 then some (.ponGon, c)
        else if Hand.countCard c = 4 then some (.anGon, c)
        else none
  else (p.throw card).map fun c => (.none, c)

/-- `Irb00::WannaHGPE`, with the place of the claimed tile that it leaves in `pickToEat`. The
source has a flag for the kong of the tile too, which decides only whether a line is printed. -/
def wannaHGPE (p : Irb00) (canHu canPon canEat : Bool) (card : MJCard) :
    CommandType × Irb00 :=
  if canHu then (.hu, p)
  else if canEat ∧ (p.eatOrNot card).1 then
    (.eat, { p with pickToEat := (p.eatOrNot card).2 })
  else if canPon ∧ p.ponOrNot card then (.pon, p)
  else (.none, p)

/-- `Irb00::Pick2Eat`. -/
def pick2Eat (p : Irb00) : ℤ :=
  p.pickToEat

end Irb00

end MahjongAI
