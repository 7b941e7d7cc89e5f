import Mathlib.Tactic.FinCases
import MahjongAI.Blocks
import MahjongAI.CardCounts
import MahjongAI.Decisions

/-!
# Hands as Multisets

The bridge between the two packed forms of a hand and multisets of kinds. `cardOf` names
the tile of a kind, `MJCards.Counts s H` says that a card set counts the multiset `H`, and
`handToTiles` turns the one into the other (`Counts.holds_handToTiles`).

The operators of both forms are multiset operations as long as no counter leaves its
room: `Counts.addCard`, `Counts.subCard`, `Tiles.Holds.addCard`, `Tiles.Holds.subCard`.
-/

open Packed

namespace MahjongAI

/-! ### The tile of a kind -/

/-- The tile of a kind, through the cell that counts it. -/
def cardOf (k : Kind) : MJCard :=
  tileToCard (Fin.ofNat 4 (k.val / 9)) (k.val % 9)

theorem cardOf_valid (k : Kind) : (cardOf k).Valid := by
  revert k
  decide

theorem cardOf_inj {k l : Kind} : cardOf k = cardOf l ↔ k = l := by
  revert k l
  decide +kernel

theorem fieldCap_cardOf (k : Kind) : fieldCap (cardOf k).color = 4 := by
  revert k
  decide

/-- The loops over the cells visit every kind once, in order. -/
theorem cells_eq :
    cells = (List.finRange 34).map fun k => (Fin.ofNat 4 (k.val / 9), k.val % 9) := by
  decide +kernel

/-! ### The packed words -/

namespace Tiles

/-- Adding a tile adds one to its cell. -/
theorem addCard_cardOf (T : Tiles) (k : Kind) :
    T.addCard (cardOf k) = T.addCell (Fin.ofNat 4 (k.val / 9)) (k.val % 9) := by
  fin_cases k <;> rfl

/-- Taking a tile takes one from its cell. -/
theorem subCard_cardOf (T : Tiles) (k : Kind) :
    T.subCard (cardOf k) = T.subCell (Fin.ofNat 4 (k.val / 9)) (k.val % 9) := by
  fin_cases k <;> rfl

/-- Two cells of one word with one field are one cell. -/
theorem cell_eq_iff {k c : ℕ} (hk : k < 36) (hc : c < 36) :
    Fin.ofNat 4 (c / 9) = Fin.ofNat 4 (k / 9) ∧ c % 9 = k % 9 ↔ c = k := by
  rw [Fin.ext_iff]
  simp only [Fin.val_ofNat]
  omega

/-- A cell with room gains one, and no other cell changes. -/
theorem get_addCell {T : Tiles} {k : ℕ} (hk : k < 36) (hroom : T.get k + 1 < 8) {c : ℕ}
    (hc : c < 36) :
    (T.addCell (Fin.ofNat 4 (k / 9)) (k % 9)).get c = T.get c + if c = k then 1 else 0 := by
  have hcell := cell_eq_iff hk hc
  simp only [get, addCell]
  by_cases hword : Fin.ofNat 4 (c / 9) = Fin.ofNat 4 (k / 9)
  · rw [hword, Function.update_self, field_add_unit (by norm_num) hroom]
    simp only [hword, true_and] at hcell
    simp only [hcell]
  · have hne : c ≠ k := fun h => hword (by rw [h])
    rw [Function.update_of_ne hword, if_neg hne, add_zero]

/-- A cell that is not empty loses one, and no other cell changes. -/
theorem get_subCell {T : Tiles} {k : ℕ} (hk : k < 36) (hpos : 0 < T.get k) {c : ℕ}
    (hc : c < 36) :
    (T.subCell (Fin.ofNat 4 (k / 9)) (k % 9)).get c = T.get c - if c = k then 1 else 0 := by
  have hcell := cell_eq_iff hk hc
  simp only [get, subCell]
  by_cases hword : Fin.ofNat 4 (c / 9) = Fin.ofNat 4 (k / 9)
  · rw [hword, Function.update_self, field_sub_unit (by norm_num) hpos]
    simp only [hword, true_and] at hcell
    simp only [hcell]
  · have hne : c ≠ k := fun h => hword (by rw [h])
    rw [Function.update_of_ne hword, if_neg hne, sub_zero]

/-- Adding a tile to the words of a hand. -/
theorem Holds.addCard {T : Tiles} {H : Multiset Kind} (h : T.Holds H) {k : Kind}
    (hroom : H.count k < 7) : (T.addCard (cardOf k)).Holds (k ::ₘ H) := by
  have hget : ∀ c < 36, (T.addCard (cardOf k)).get c = T.get c + if c = k then 1 else 0 := by
    intro c hc
    rw [addCard_cardOf]
    exact get_addCell (by omega) (by rw [h.get_eq]; omega) hc
  refine ⟨fun l => ?_, ?_, ?_⟩
  · rw [hget l (by omega), h.get_eq, Multiset.count_cons]
    simp only [Fin.ext_iff]
    push_cast
    rfl
  · rw [hget 34 (by norm_num), h.unused.1, if_neg (by omega), add_zero]
  · rw [hget 35 (by norm_num), h.unused.2, if_neg (by omega), add_zero]

/-- Taking a tile from the words of a hand that has it. -/
theorem Holds.subCard {T : Tiles} {H : Multiset Kind} (h : T.Holds H) {k : Kind}
    (hk : k ∈ H) : (T.subCard (cardOf k)).Holds (H.erase k) := by
  have hpos : 0 < H.count k := Multiset.count_pos.mpr hk
  have hget : ∀ c < 36, (T.subCard (cardOf k)).get c = T.get c - if c = k then 1 else 0 := by
    intro c hc
    rw [subCard_cardOf]
    exact get_subCell (by omega) (by rw [h.get_eq]; omega) hc
  refine ⟨fun l => ?_, ?_, ?_⟩
  · rw [hget l (by omega), h.get_eq]
    by_cases hl : l = k
    · subst hl
      rw [if_pos rfl, Multiset.count_erase_self]
      omega
    · rw [if_neg (fun hval => hl (Fin.ext hval)), Multiset.count_erase_of_ne hl, sub_zero]
  · rw [hget 34 (by norm_num), h.unused.1, if_neg (by omega), sub_zero]
  · rw [hget 35 (by norm_num), h.unused.2, if_neg (by omega), sub_zero]

/-- Taking a part of the hand away, word by word. -/
theorem Holds.sub {T t : Tiles} {H H' : Multiset Kind} (h : T.Holds H) (h' : t.Holds H')
    (hle : H' ≤ H) : (T.sub t).Holds (H - H') := by
  have hcell : ∀ c < 36, t.get c ≤ T.get c := by
    intro c hc
    by_cases hk : c < 34
    · have hget := h.get_eq ⟨c, hk⟩
      have hget' := h'.get_eq ⟨c, hk⟩
      have := Multiset.le_iff_count.mp hle ⟨c, hk⟩
      simp only at hget hget'
      omega
    · have hc' : c = 34 ∨ c = 35 := by omega
      rcases hc' with rfl | rfl
      · rw [h.unused.1, h'.unused.1]
      · rw [h.unused.2, h'.unused.2]
  have hget : ∀ c < 36, (T.sub t).get c = T.get c - t.get c := by
    intro c hc
    refine field_sub fun j hj => ?_
    have hj9 : j < 9 := by omega
    rw [← get_cell T _ hj9, ← get_cell t _ hj9]
    exact hcell _ (by omega)
  refine ⟨fun k => ?_, ?_, ?_⟩
  · have := Multiset.le_iff_count.mp hle k
    rw [hget k (by omega), h.get_eq, h'.get_eq, Multiset.count_sub]
    omega
  · rw [hget 34 (by norm_num), h.unused.1, h'.unused.1, sub_zero]
  · rw [hget 35 (by norm_num), h.unused.2, h'.unused.2, sub_zero]

end Tiles

/-! ### The card set -/

namespace MJCards

/-- The card set counts the multiset `H`. -/
structure Counts (s : MJCards) (H : Multiset Kind) : Prop where
  inRange : s.InRange
  count_eq : ∀ k : Kind, s.countCard (cardOf k) = H.count k

theorem Counts.count_le {s : MJCards} {H : Multiset Kind} (h : s.Counts H) (k : Kind) :
    H.count k ≤ 4 := by
  have hle := h.inRange.countCard_le (cardOf k) (cardOf_valid k)
  rw [h.count_eq, fieldCap_cardOf] at hle
  exact_mod_cast hle

/-- `+=` of a tile of which there are fewer than four. -/
theorem Counts.addCard {s : MJCards} {H : Multiset Kind} (h : s.Counts H) {k : Kind}
    (hroom : H.count k < 4) : (s.addCard (cardOf k)).Counts (k ::ₘ H) := by
  have hroom' : s.countCard (cardOf k) < fieldCap (cardOf k).color := by
    rw [h.count_eq, fieldCap_cardOf]
    exact_mod_cast hroom
  refine ⟨h.inRange.addCard (cardOf_valid k) hroom', fun l => ?_⟩
  rw [countCard_addCard s (cardOf_valid k) (cardOf_valid l) hroom', h.count_eq,
    Multiset.count_cons]
  simp only [cardOf_inj]
  push_cast
  rfl

/-- `-=` of a tile, whether it is there or not. -/
theorem Counts.subCard {s : MJCards} {H : Multiset Kind} (h : s.Counts H) (k : Kind) :
    (s.subCard (cardOf k)).Counts (H.erase k) := by
  refine ⟨h.inRange.subCard (cardOf_valid k), fun l => ?_⟩
  rw [countCard_subCard s (cardOf_valid k) (cardOf_valid l), h.count_eq, h.count_eq]
  simp only [cardOf_inj]
  by_cases hl : l = k
  · subst hl
    rw [Multiset.count_erase_self]
    simp only [true_and]
    split <;> omega
  · rw [if_neg (fun hand => hl hand.1), Multiset.count_erase_of_ne hl, sub_zero]

/-- The cell of a suited kind is the field of its suit, the cell of an honour the field of
the winds below or of the dragons above. -/
theorem get_handToTiles {s : MJCards} (h : s.InRange) :
    (∀ k : Kind, (handToTiles s).get k.val = s.countCard (cardOf k)) ∧
      (handToTiles s).get 34 = 0 ∧ (handToTiles s).get 35 = 0 := by
  have hwinds0 : 0 ≤ s.windsCards := h.get_nonneg 4 (by norm_num) (by norm_num)
  have hwinds1 : s.windsCards < 2 ^ (4 * 3) := h.get_lt 4 (by norm_num) (by norm_num)
  have hcfb0 : 0 ≤ s.cfbCards := h.get_nonneg 3 (by norm_num) (by norm_num)
  have hcfb1 : s.cfbCards < 2 ^ (3 * 3) := h.get_lt 3 (by norm_num) (by norm_num)
  have hhonour : ∀ j : ℕ, field 3 ((handToTiles s).tiles 3) j =
      if j < 4 then field 3 s.windsCards j else field 3 s.cfbCards (j - 4) := fun j =>
    field_shift_add (w := 3) (n := 4) hwinds0 hwinds1 j
  have hsuit : ∀ i : Fin 3, (handToTiles s).tiles (Fin.ofNat 4 i.val) = (s.mjcolor i).value := by
    intro i
    fin_cases i <;> rfl
  refine ⟨fun k => ?_, ?_, ?_⟩
  · rw [countCard_eq s (cardOf_valid k)]
    fin_cases k
    all_goals first
      | exact congrArg (fun v => field 3 v _) (hsuit 0)
      | exact congrArg (fun v => field 3 v _) (hsuit 1)
      | exact congrArg (fun v => field 3 v _) (hsuit 2)
      | exact hhonour _
  · exact (hhonour 7).trans (field_eq_zero_of_lt hcfb0 hcfb1 le_rfl)
  · exact (hhonour 8).trans (field_eq_zero_of_lt hcfb0 hcfb1 (by norm_num))

/-- **`HandToTiles`** keeps the hand. -/
theorem Counts.holds_handToTiles {s : MJCards} {H : Multiset Kind} (h : s.Counts H) :
    (handToTiles s).Holds H := by
  obtain ⟨hget, hunused⟩ := get_handToTiles h.inRange
  exact ⟨fun k => by rw [hget, h.count_eq], hunused⟩

end MJCards

end MahjongAI
