import Mathlib.Algebra.BigOperators.Group.List.Basic
import Mathlib.Data.Fin.Basic
import Mathlib.Data.Fintype.Pi
import Mathlib.Logic.Function.Basic
import MahjongAI.PackedFields

/-!
# Cards and the Packed Card Set

`MJCard` is one tile, a colour and a value: colours `0`, `1`, `2` are the suits
(characters, dots, bamboo) with values `0`–`8`, colour `3` the dragons with values
`0`–`2`, colour `4` the winds with values `0`–`3`, colour `5` the flowers with values
`0`–`7`. `MJCards` is a multiset of tiles packed into six integers: one word of 3-bit
counters for each suit, one for the dragons, one for the winds, and one word of single
bits for the flowers.

The machine words are modelled over `ℤ`: the sums the program forms stay below `2 ^ 27`
as long as the counters do what they should (`MJCards.InRange`), so that no 32-bit
addition overflows, and a carry or a borrow between counters shows as a wrong field.

The operators keep the branches of the source, whose guards differ: the suits refuse a
fifth copy, the other words are added to without a test; removal is guarded everywhere.
`countCard_addCard` and `countCard_subCard` say what each operator does to every count,
and are what the later modules use in place of the definitions.
-/

open Packed

namespace MahjongAI

/-- The suits are numbered by `Fin 3`. -/
instance neZeroThree : NeZero 3 := ⟨by omega⟩

/-- A tile: its colour and its value. -/
structure MJCard where
  color : ℤ
  value : ℤ
  deriving DecidableEq, Repr

/-- `MJCard()`: the tile of no colour. -/
def MJCard.none : MJCard := ⟨-1, -1⟩

/-- `MJCard::StringToCard`. The map of colour letters yields `0` for every other letter,
and the honours share one letter: values `0`–`3` are winds, the rest dragons. -/
def stringToCard (card : List Char) : MJCard :=
  let color : ℤ :=
    match card.head? with
    | some 'd' => 1
    | some 'b' => 2
    | some 'o' => 3
    | some 'f' => 5
    | _ => 0
  let value : ℤ := ((card.getD 1 '\x00').toNat : ℤ) - ('1'.toNat : ℤ)
  if color = 3 ∧ value < 4 then ⟨4, value⟩
  else if color = 3 then ⟨color, value - 4⟩
  else ⟨color, value⟩

/-- `MJCard::toString`: the colour letter and the value counted from one. The letter
table is read at the adjusted colour, so the tiles of no colour have no text. -/
def MJCard.toString (card : MJCard) : Option (List Char) :=
  let (color, value) :=
    if card.color = 3 then (card.color, card.value + 4)
    else if card.color = 4 then (3, card.value)
    else if card.color = 5 then (4, card.value)
    else (card.color, card.value)
  if color < 0 then Option.none
  else (['c', 'd', 'b', 'o', 'f'][color.toNat]?).map
    fun letter => letter :: Nat.toDigits 10 (value + 1).toNat

/-- One suit: nine 3-bit counters in one word. -/
structure MJColor where
  value : ℤ
  deriving DecidableEq, Repr

/-- `MJColor::operator[]`: the counter of one rank. -/
def MJColor.get (c : MJColor) (idx : ℕ) : ℤ :=
  field 3 c.value idx

/-- `MJColor::operator+=`. -/
def MJColor.add (c : MJColor) (value : ℕ) : MJColor :=
  ⟨c.value + unit 3 value⟩

/-- `MJColor::operator-=`. -/
def MJColor.sub (c : MJColor) (value : ℕ) : MJColor :=
  ⟨c.value - unit 3 value⟩

/-- A multiset of tiles: the three suits, the dragons (`cfbCards`), the winds and the
flowers. -/
structure MJCards where
  mjcolor : Fin 3 → MJColor
  cfbCards : ℤ
  windsCards : ℤ
  flowersCards : ℤ
  deriving DecidableEq

/-- The index into `mjcolor` of a suit's colour. -/
def suit (color : ℤ) : Fin 3 :=
  Fin.ofNat 3 color.toNat

namespace MJCards

/-- `MJCards::MJCards(bool full)`: the whole set of tiles, or none. -/
def make (full : Bool) : MJCards :=
  if full then
    { mjcolor := fun _ => ⟨0b100100100100100100100100100⟩
      cfbCards := 0b100100100
      windsCards := 0b100100100100
      flowersCards := 0b11111111 }
  else
    { mjcolor := fun _ => ⟨0⟩, cfbCards := 0, windsCards := 0, flowersCards := 0 }

/-- The word of one colour, `MJCards::operator[](int color)` read as an integer. -/
def get (s : MJCards) (color : ℤ) : ℤ :=
  if color = 5 then s.flowersCards
  else if color = 4 then s.windsCards
  else if color = 3 then s.cfbCards
  else (s.mjcolor (suit color)).value

/-- Assignment through `MJCards::operator[](int color)`. -/
def set (s : MJCards) (color : ℤ) (v : ℤ) : MJCards :=
  if color = 5 then { s with flowersCards := v }
  else if color = 4 then { s with windsCards := v }
  else if color = 3 then { s with cfbCards := v }
  else { s with mjcolor := Function.update s.mjcolor (suit color) ⟨v⟩ }

/-- `MJCards::operator+=(const MJCard&)`. Only the suits test the counter first. -/
def addCard (s : MJCards) (card : MJCard) : MJCards :=
  if 0 ≤ card.color ∧ card.color ≤ 2 then
    if (s.mjcolor (suit card.color)).get card.value.toNat < 4 then
      { s with
        mjcolor := Function.update s.mjcolor (suit card.color)
          ((s.mjcolor (suit card.color)).add card.value.toNat) }
    else s
  else if card.color = 3 then { s with cfbCards := s.cfbCards + unit 3 card.value.toNat }
  else if card.color = 4 then { s with windsCards := s.windsCards + unit 3 card.value.toNat }
  else if card.color = 5 then
    { s with flowersCards := s.flowersCards + unit 1 card.value.toNat }
  else s

/-- `MJCards::operator-=(const MJCard&)`: a tile that is not there is not taken. -/
def subCard (s : MJCards) (card : MJCard) : MJCards :=
  if 0 ≤ card.color ∧ card.color ≤ 2 then
    if 0 < (s.mjcolor (suit card.color)).get card.value.toNat then
      { s with
        mjcolor := Function.update s.mjcolor (suit card.color)
          ((s.mjcolor (suit card.color)).sub card.value.toNat) }
    else s
  else if card.color = 3 then
    if field 3 s.cfbCards card.value.toNat ≠ 0 then
      { s with cfbCards := s.cfbCards - unit 3 card.value.toNat }
    else s
  else if card.color = 4 then
    if field 3 s.windsCards card.value.toNat ≠ 0 then
      { s with windsCards := s.windsCards - unit 3 card.value.toNat }
    else s
  else if card.color = 5 then
    if field 1 s.flowersCards card.value.toNat ≠ 0 then
      { s with flowersCards := s.flowersCards - unit 1 card.value.toNat }
    else s
  else s

/-- `MJCards::Count(const MJCard&)`. -/
def countCard (s : MJCards) (card : MJCard) : ℤ :=
  if card.color = 0 ∨ card.color = 1 ∨ card.color = 2 then
    (s.mjcolor (suit card.color)).get card.value.toNat
  else if card.color = 3 then field 3 s.cfbCards card.value.toNat
  else if card.color = 4 then field 3 s.windsCards card.value.toNat
  else if card.color = 5 then field 1 s.flowersCards card.value.toNat
  else -1

end MJCards

/-! ### The layout of the words -/

/-- Bits per counter of a colour. -/
def fieldWidth (color : ℤ) : ℕ :=
  if color = 5 then 1 else 3

/-- Number of values of a colour. -/
def fieldNum (color : ℤ) : ℕ :=
  if color = 3 then 3 else if color = 4 then 4 else if color = 5 then 8 else 9

/-- Copies of each tile of a colour in the whole set. -/
def fieldCap (color : ℤ) : ℤ :=
  if color = 5 then 1 else 4

/-- A tile of the set: one of the six colours with one of its values. -/
def MJCard.Valid (card : MJCard) : Prop :=
  0 ≤ card.color ∧ card.color ≤ 5 ∧ 0 ≤ card.value ∧ card.value < fieldNum card.color

instance (card : MJCard) : Decidable card.Valid :=
  inferInstanceAs (Decidable (_ ∧ _ ∧ _ ∧ _))

theorem fieldWidth_pos (color : ℤ) : 0 < fieldWidth color := by
  rw [fieldWidth]
  split <;> norm_num

theorem fieldCap_lt (color : ℤ) : fieldCap color < 2 ^ fieldWidth color := by
  rw [fieldCap, fieldWidth]
  split <;> norm_num

/-- Distinct suits have distinct words. -/
theorem suit_eq_iff {c c' : ℤ} (h0 : 0 ≤ c) (h2 : c ≤ 2) (h0' : 0 ≤ c') (h2' : c' ≤ 2) :
    suit c = suit c' ↔ c = c' := by
  simp only [suit]
  rw [Fin.ext_iff]
  simp only [Fin.val_ofNat]
  omega

namespace MJCards

/-- Reading a word after a write. -/
theorem get_set (s : MJCards) {c c' : ℤ} (h0 : 0 ≤ c) (h5 : c ≤ 5) (h0' : 0 ≤ c')
    (h5' : c' ≤ 5) (v : ℤ) : (s.set c v).get c' = if c' = c then v else s.get c' := by
  have hcases : ∀ {x : ℤ}, 0 ≤ x → x ≤ 5 → x ≤ 2 ∨ x = 3 ∨ x = 4 ∨ x = 5 := by omega
  rcases hcases h0 h5 with h | rfl | rfl | rfl
  · have hc : c ≠ 5 ∧ c ≠ 4 ∧ c ≠ 3 := by omega
    simp only [set, hc, if_false]
    rcases hcases h0' h5' with h' | rfl | rfl | rfl
    · have hc' : c' ≠ 5 ∧ c' ≠ 4 ∧ c' ≠ 3 := by omega
      simp only [get, hc', if_false, Function.update_apply, suit_eq_iff h0' h' h0 h]
      split <;> rfl
    all_goals
      rw [if_neg (by omega)]
      simp [get]
  all_goals
    rcases hcases h0' h5' with h' | rfl | rfl | rfl
    · have hc' : c' ≠ 5 ∧ c' ≠ 4 ∧ c' ≠ 3 := by omega
      simp [get, set, hc']
    all_goals simp [get, set]

/-- Every valid tile is counted by one field of its colour's word. -/
theorem countCard_eq (s : MJCards) {card : MJCard} (h : card.Valid) :
    s.countCard card = field (fieldWidth card.color) (s.get card.color) card.value.toNat := by
  obtain ⟨h0, h5, -, -⟩ := h
  have hcases : card.color = 0 ∨ card.color = 1 ∨ card.color = 2 ∨ card.color = 3 ∨
      card.color = 4 ∨ card.color = 5 := by omega
  rcases hcases with h | h | h | h | h | h <;>
    simp [countCard, get, fieldWidth, MJColor.get, h]

theorem countCard_nonneg (s : MJCards) {card : MJCard} (h : card.Valid) :
    0 ≤ s.countCard card := by
  rw [countCard_eq s h]
  exact field_nonneg _ _ _

/-- Adding a tile whose counter is below its cap is adding one unit to its word. -/
theorem addCard_eq_set (s : MJCards) {card : MJCard} (h : card.Valid)
    (hroom : s.countCard card < fieldCap card.color) :
    s.addCard card =
      s.set card.color (s.get card.color + unit (fieldWidth card.color) card.value.toNat) := by
  obtain ⟨h0, h5, -, -⟩ := h
  have hcases : card.color = 0 ∨ card.color = 1 ∨ card.color = 2 ∨ card.color = 3 ∨
      card.color = 4 ∨ card.color = 5 := by omega
  rcases hcases with h | h | h | h | h | h
  all_goals
    simp only [countCard, fieldCap, h] at hroom
    simp_all [addCard, set, get, fieldWidth, MJColor.add]

/-- Taking a tile that is there is taking one unit from its word. -/
theorem subCard_eq_set (s : MJCards) {card : MJCard} (h : card.Valid)
    (hpos : 0 < s.countCard card) :
    s.subCard card =
      s.set card.color (s.get card.color - unit (fieldWidth card.color) card.value.toNat) := by
  obtain ⟨h0, h5, -, -⟩ := h
  have hcases : card.color = 0 ∨ card.color = 1 ∨ card.color = 2 ∨ card.color = 3 ∨
      card.color = 4 ∨ card.color = 5 := by omega
  rcases hcases with h | h | h | h | h | h
  all_goals
    simp only [countCard, h] at hpos
    have := hpos.ne'
    simp_all [subCard, set, get, fieldWidth, MJColor.sub]

/-- A suit refuses a fifth copy. -/
theorem addCard_of_full (s : MJCards) {card : MJCard} (h : card.Valid)
    (hsuit : card.color ≤ 2) (hfull : 4 ≤ s.countCard card) : s.addCard card = s := by
  obtain ⟨h0, -, -, -⟩ := h
  have hcases : card.color = 0 ∨ card.color = 1 ∨ card.color = 2 := by omega
  rcases hcases with h | h | h
  all_goals
    simp only [countCard, h] at hfull
    simp_all [addCard]

/-- Taking a tile that is not there changes nothing. -/
theorem subCard_of_empty (s : MJCards) {card : MJCard} (h : card.Valid)
    (hempty : s.countCard card = 0) : s.subCard card = s := by
  obtain ⟨h0, h5, -, -⟩ := h
  have hcases : card.color = 0 ∨ card.color = 1 ∨ card.color = 2 ∨ card.color = 3 ∨
      card.color = 4 ∨ card.color = 5 := by omega
  rcases hcases with h | h | h | h | h | h
  all_goals
    simp only [countCard, h] at hempty
    simp_all [subCard]

/-- Two valid tiles of one colour with one counter are one tile. -/
theorem card_eq_of_toNat_eq {c d : MJCard} (hc : c.Valid) (hd : d.Valid)
    (hcolor : d.color = c.color) (hvalue : d.value.toNat = c.value.toNat) : d = c := by
  obtain ⟨-, -, hc0, -⟩ := hc
  obtain ⟨-, -, hd0, -⟩ := hd
  cases c
  cases d
  simp only [MJCard.mk.injEq] at *
  omega

/-- **What `+=` does to the counts**: a tile whose counter is below its cap gains one
copy, and every other count stays. -/
theorem countCard_addCard (s : MJCards) {c d : MJCard} (hc : c.Valid) (hd : d.Valid)
    (hroom : s.countCard c < fieldCap c.color) :
    (s.addCard c).countCard d = s.countCard d + if d = c then 1 else 0 := by
  have hroom' := hroom
  rw [countCard_eq s hc] at hroom'
  rw [addCard_eq_set s hc hroom, countCard_eq _ hd, countCard_eq s hd,
    get_set _ hc.1 hc.2.1 hd.1 hd.2.1]
  by_cases hcol : d.color = c.color
  · rw [if_pos hcol, hcol, field_add_unit (fieldWidth_pos _)
      (by have := fieldCap_lt c.color; omega)]
    congr 1
    by_cases hval : d.value.toNat = c.value.toNat
    · rw [if_pos hval, if_pos (card_eq_of_toNat_eq hc hd hcol hval)]
    · rw [if_neg hval, if_neg (fun h => hval (by rw [h]))]
  · rw [if_neg hcol, if_neg (fun h => hcol (by rw [h])), add_zero]

/-- **What `-=` does to the counts**: a tile that is there loses one copy, and every
other count stays. -/
theorem countCard_subCard (s : MJCards) {c d : MJCard} (hc : c.Valid) (hd : d.Valid) :
    (s.subCard c).countCard d =
      s.countCard d - if d = c ∧ 0 < s.countCard c then 1 else 0 := by
  by_cases hpos : 0 < s.countCard c
  · have hpos' := hpos
    rw [countCard_eq s hc] at hpos'
    simp only [hpos, and_true]
    rw [subCard_eq_set s hc hpos, countCard_eq _ hd, countCard_eq s hd,
      get_set _ hc.1 hc.2.1 hd.1 hd.2.1]
    by_cases hcol : d.color = c.color
    · rw [if_pos hcol, hcol, field_sub_unit (fieldWidth_pos _) hpos']
      congr 1
      by_cases hval : d.value.toNat = c.value.toNat
      · rw [if_pos hval, if_pos (card_eq_of_toNat_eq hc hd hcol hval)]
      · rw [if_neg hval, if_neg (fun h => hval (by rw [h]))]
    · rw [if_neg hcol, if_neg (fun h => hcol (by rw [h])), sub_zero]
  · have hempty : s.countCard c = 0 := by
      have := countCard_nonneg s hc
      omega
    rw [subCard_of_empty s hc hempty]
    simp [hpos]

end MJCards

end MahjongAI
