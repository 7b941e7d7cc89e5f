import Mathlib.Data.List.Perm.Basic
import Mathlib.Data.List.Perm.Subperm
import MahjongAI.CardCounts
import MahjongAI.Tally

/-!
# Drawing Tiles

`MJCards::at` reads one tile of a card set by adding up the counters of the six words until
the sum exceeds the index, and `MJCards::Draw` takes the tile at a random index out of the
set. The counters are walked four times in the source with four layouts: here, by `Count`,
by `Count(card)` and by `-=`.

`tiles` is the list of all tiles that `at` reads. It is the list of the tally that the
counters are (`tiles_eq_expand`), so it holds every tile as often as `Count(card)` says, and
a draw moves one tile from it to the result.

## Main results

* `draw_spec`: one draw from a set that is not empty.
* `draws_spec`: what has been drawn and what is left are together the set.
* `draw_all`: `Count()` draws deal the whole set, whatever `rand` returns.
-/

open Packed

namespace MahjongAI

/-- `MJColor::Count`. -/
def MJColor.count (c : MJColor) : ℤ :=
  ((List.range 9).map fun i => c.get i).sum

namespace MJCards

/-- `MJCards::Count()`. -/
def count (s : MJCards) : ℤ :=
  ((List.range 3).map fun i : ℕ => (s.mjcolor (Fin.ofNat 3 i)).count).sum +
    ((List.range 3).map fun i => field 3 s.cfbCards i).sum +
    ((List.range 4).map fun i => field 3 s.windsCards i).sum +
    ((List.range 8).map fun i => field 1 s.flowersCards i).sum

/-- The tiles with their counters, in the order of the four loops of `MJCards::at`. -/
def counters (s : MJCards) : List (MJCard × ℤ) :=
  ((List.range 3).flatMap fun c : ℕ => (List.range 9).map fun v : ℕ =>
      (⟨c, v⟩, (s.mjcolor (Fin.ofNat 3 c)).get v)) ++
    ((List.range 3).map fun i : ℕ => (⟨3, i⟩, field 3 s.cfbCards i)) ++
    ((List.range 4).map fun i : ℕ => (⟨4, i⟩, field 3 s.windsCards i)) ++
    (List.range 8).map fun i : ℕ => (⟨5, i⟩, field 1 s.flowersCards i)

/-- `MJCards::at`: the first tile at which the running total exceeds the index. -/
def cardAt (s : MJCards) (idx : ℤ) : MJCard :=
  if idx < 0 then ⟨-21, -21⟩
  else
    match Tally.search idx s.counters 0 with
    | some card => card
    | none => ⟨-1, -1⟩

/-- `MJCards::Draw`, with the value that `rand` returns. -/
def draw (s : MJCards) (rand : ℕ) : MJCard × MJCards :=
  let len := s.count
  let len := if len = 0 then 1 else len
  let result := s.cardAt (rand % len)
  (result, s.subCard result)

/-- The tiles `at(0)`, …, `at(Count() - 1)`. -/
def tiles (s : MJCards) : List MJCard :=
  (List.range s.count.toNat).map fun i : ℕ => s.cardAt i

/-- Draws, one for each value that `rand` returns: the tiles drawn and the set left. -/
def draws (s : MJCards) : List ℕ → List MJCard × MJCards
  | [] => ([], s)
  | rand :: rands =>
      let (card, s) := s.draw rand
      let (cards, s) := s.draws rands
      (card :: cards, s)

/-! ### The list of the tiles -/

/-- The four loops go through the tiles of the set, in the order of colours and values. -/
theorem counters_eq (s : MJCards) : s.counters = allCards.map fun c => (c, s.countCard c) :=
  rfl

theorem nodup_allCards : allCards.Nodup := by
  decide +kernel

theorem counters_nonneg (s : MJCards) : ∀ e ∈ s.counters, 0 ≤ e.2 := by
  intro e he
  rw [counters_eq] at he
  obtain ⟨card, hcard, rfl⟩ := List.mem_map.mp he
  exact s.countCard_nonneg (mem_allCards.mp hcard)

/-- `Count()` adds up the same counters. -/
theorem count_eq_sum (s : MJCards) : s.count = (s.counters.map Prod.snd).sum := by
  rw [counters, List.map_append, List.map_append, List.map_append, List.sum_append,
    List.sum_append, List.sum_append, List.map_flatMap, List.flatMap_def, List.sum_flatten,
    List.map_map, List.map_map, List.map_map, List.map_map]
  rfl

theorem count_eq_length (s : MJCards) : s.count = ((Tally.expand s.counters).length : ℤ) := by
  rw [count_eq_sum, Tally.length_expand s.counters_nonneg]

/-- **`at` reads the list** of the tally. -/
theorem cardAt_eq {s : MJCards} {i : ℕ} (hi : i < (Tally.expand s.counters).length) :
    s.cardAt i = (Tally.expand s.counters)[i] := by
  have hsearch : Tally.search i s.counters 0 =
      (Tally.expand s.counters)[((i : ℤ) - 0).toNat]? :=
    Tally.search_eq_getElem? s.counters_nonneg (Int.natCast_nonneg i)
  rw [sub_zero, Int.toNat_natCast, List.getElem?_eq_getElem hi] at hsearch
  rw [cardAt, if_neg (by omega), hsearch]

theorem tiles_eq_expand (s : MJCards) : s.tiles = Tally.expand s.counters := by
  have hcount := s.count_eq_length
  refine List.ext_getElem ?_ fun i hi hi' => ?_
  · rw [tiles, List.length_map, List.length_range]
    omega
  · rw [← cardAt_eq hi']
    simp only [tiles, List.getElem_map, List.getElem_range]

theorem length_tiles (s : MJCards) : (s.tiles.length : ℤ) = s.count := by
  rw [tiles_eq_expand, count_eq_length]

/-- The list holds each tile as often as `Count(card)` counts it, and nothing else. -/
theorem count_tiles (s : MJCards) (card : MJCard) :
    s.tiles.count card = if card.Valid then (s.countCard card).toNat else 0 := by
  rw [tiles_eq_expand, counters_eq, Tally.count_expand _ nodup_allCards]
  simp only [mem_allCards]

theorem valid_of_mem_tiles {s : MJCards} {card : MJCard} (h : card ∈ s.tiles) : card.Valid := by
  by_contra hcard
  have hcount := s.count_tiles card
  rw [if_neg hcard] at hcount
  exact List.count_eq_zero.mp hcount h

/-- A set without tiles is one that counts no tile. -/
theorem count_eq_zero_iff {s : MJCards} :
    s.count = 0 ↔ ∀ card : MJCard, card.Valid → s.countCard card = 0 := by
  have hlength := s.length_tiles
  constructor
  · intro hzero card hcard
    have hnil : s.tiles = [] := List.length_eq_zero_iff.mp (by omega)
    have hcount := s.count_tiles card
    have := s.countCard_nonneg hcard
    rw [hnil, if_pos hcard, List.count_nil] at hcount
    omega
  · intro hempty
    have hnil : s.tiles = [] := List.eq_nil_iff_forall_not_mem.mpr fun card hmem => by
      have hcard := valid_of_mem_tiles hmem
      have hcount := s.count_tiles card
      have := List.count_pos_iff.mpr hmem
      rw [if_pos hcard, hempty card hcard] at hcount
      omega
    rw [hnil] at hlength
    exact hlength.symm

/-! ### Drawing -/

/-- **One draw** from a set that is not empty takes one tile of it. -/
theorem draw_spec {s : MJCards} (rand : ℕ) (h : 0 < s.count) :
    (s.draw rand).1 ∈ s.tiles ∧
      ((s.draw rand).1 :: (s.draw rand).2.tiles).Perm s.tiles := by
  obtain ⟨n, hn⟩ : ∃ n : ℕ, s.count = n := ⟨s.count.toNat, by omega⟩
  have hlength : (Tally.expand s.counters).length = n := by
    have := s.count_eq_length
    omega
  have hidx : rand % n < (Tally.expand s.counters).length := by
    rw [hlength]
    exact Nat.mod_lt _ (by omega)
  have hdraw : (s.draw rand).1 = (Tally.expand s.counters)[rand % n] := by
    rw [← cardAt_eq hidx]
    simp only [draw]
    rw [if_neg h.ne', hn]
    rfl
  have hmem : (s.draw rand).1 ∈ s.tiles := by
    rw [hdraw, tiles_eq_expand]
    exact List.getElem_mem hidx
  have hvalid := valid_of_mem_tiles hmem
  have hpos : 0 < s.countCard (s.draw rand).1 := by
    have hcount := s.count_tiles (s.draw rand).1
    have := List.count_pos_iff.mpr hmem
    rw [if_pos hvalid] at hcount
    omega
  refine ⟨hmem, List.perm_iff_count.mpr fun card => ?_⟩
  have hleft : (s.draw rand).2 = s.subCard (s.draw rand).1 := rfl
  rw [hleft, List.count_cons, count_tiles, count_tiles]
  by_cases hcard : card.Valid
  · have hnonneg := s.countCard_nonneg hcard
    rw [if_pos hcard, if_pos hcard, countCard_subCard s hvalid hcard]
    by_cases hsame : (s.draw rand).1 = card
    · rw [if_pos ⟨hsame.symm, hpos⟩, if_pos (beq_iff_eq.mpr hsame)]
      rw [hsame] at hpos
      omega
    · rw [if_neg fun hand => hsame hand.1.symm, if_neg (mt beq_iff_eq.mp hsame)]
      omega
  · have hsame : (s.draw rand).1 ≠ card := fun hsame => hcard (hsame ▸ hvalid)
    rw [if_neg hcard, if_neg hcard, if_neg (mt beq_iff_eq.mp hsame)]

/-- One draw lowers `Count()` by one. -/
theorem count_draw {s : MJCards} (rand : ℕ) (h : 0 < s.count) :
    (s.draw rand).2.count = s.count - 1 := by
  have hlength := (draw_spec rand h).2.length_eq
  rw [List.length_cons] at hlength
  rw [← length_tiles, ← length_tiles]
  omega

/-- **Draws.** As long as there are tiles, what has been drawn and what is left are together
the set. -/
theorem draws_spec {s : MJCards} {rands : List ℕ} (h : (rands.length : ℤ) ≤ s.count) :
    ((s.draws rands).1 ++ (s.draws rands).2.tiles).Perm s.tiles ∧
      (s.draws rands).2.count = s.count - rands.length := by
  induction rands generalizing s with
  | nil => exact ⟨List.Perm.refl _, by simp [draws]⟩
  | cons rand rands ih =>
      rw [List.length_cons] at h
      have hpos : 0 < s.count := by omega
      have hcount := count_draw rand hpos
      obtain ⟨hperm, hleft⟩ := ih (s := (s.draw rand).2) (by omega)
      refine ⟨(hperm.cons _).trans (draw_spec rand hpos).2, ?_⟩
      rw [List.length_cons]
      simp only [draws]
      omega

/-- Draws keep the representation. -/
theorem InRange.draws {s : MJCards} (hs : s.InRange) {rands : List ℕ}
    (h : (rands.length : ℤ) ≤ s.count) : (s.draws rands).2.InRange := by
  induction rands generalizing s with
  | nil => exact hs
  | cons rand rands ih =>
      rw [List.length_cons] at h
      have hpos : 0 < s.count := by omega
      have hcount := count_draw rand hpos
      have hvalid := valid_of_mem_tiles (draw_spec rand hpos).1
      exact ih (s := (s.draw rand).2) (hs.subCard hvalid) (by omega)

/-- A set in range that counts nothing is the empty set. -/
theorem InRange.eq_make_false {s : MJCards} (hs : s.InRange)
    (h : ∀ card : MJCard, card.Valid → s.countCard card = 0) : s = make false := by
  have hword : ∀ c : ℤ, 0 ≤ c → c ≤ 5 → s.get c = 0 := by
    intro c h0 h5
    have hfields : ∀ i < fieldNum c, field (fieldWidth c) (s.get c) i =
        field (fieldWidth c) 0 i := by
      intro i hi
      have hcard : (⟨c, i⟩ : MJCard).Valid :=
        ⟨h0, h5, Int.natCast_nonneg i, Int.ofNat_lt.mpr hi⟩
      have hcount := h _ hcard
      rw [countCard_eq s hcard] at hcount
      rw [field_zero]
      exact hcount
    rw [← pack_field (hs.get_nonneg c h0 h5) (hs.get_lt c h0 h5), pack_congr hfields,
      pack_field le_rfl (by positivity)]
  obtain ⟨mjcolor, cfbCards, windsCards, flowersCards⟩ := s
  have hdragons : cfbCards = 0 := hword 3 (by norm_num) (by norm_num)
  have hwinds : windsCards = 0 := hword 4 (by norm_num) (by norm_num)
  have hflowers : flowersCards = 0 := hword 5 (by norm_num) (by norm_num)
  have hsuits : mjcolor = fun _ => ⟨0⟩ := by
    funext i
    have hi := hword i.val (by omega) (by omega)
    have hsuit : suit (i.val : ℤ) = i := by
      rw [suit, Int.toNat_natCast]
      exact Fin.ofNat_val_eq_self i
    simp only [get, hsuit] at hi
    rw [if_neg (by omega), if_neg (by omega), if_neg (by omega)] at hi
    exact congrArg MJColor.mk hi
  subst hdragons hwinds hflowers hsuits
  rfl

end MJCards

/-- **Drawing deals the whole set.** The list `at(0)`, …, `at(Count() - 1)` holds each tile as
often as it is counted and nothing else; and `Count()` draws return a permutation of it,
each lowering `Count()` by one, and leave the set empty. -/
theorem draw_all (s : MJCards) (hkept : CountsKept s) :
    (∀ card : MJCard, card.Valid → (s.tiles.count card : ℤ) = s.countCard card) ∧
      (∀ card ∈ s.tiles, card.Valid) ∧
      ∀ rands : List ℕ, (rands.length : ℤ) = s.count →
        (s.draws rands).1.Perm s.tiles ∧
          (∀ before rand after, rands = before ++ rand :: after →
            ((s.draws before).2.draw rand).2.count = (s.draws before).2.count - 1) ∧
          (s.draws rands).2.count = 0 ∧
          (∀ card : MJCard, card.Valid → (s.draws rands).2.countCard card = 0) ∧
          (s.InRange → (s.draws rands).2 = MJCards.make false) := by
  refine ⟨fun card hcard => ?_, fun card => MJCards.valid_of_mem_tiles, fun rands hrands => ?_⟩
  · have := (hkept card hcard).1
    rw [MJCards.count_tiles, if_pos hcard]
    omega
  · obtain ⟨hperm, hcount⟩ := MJCards.draws_spec hrands.le
    have hzero : (s.draws rands).2.count = 0 := by omega
    have hempty := MJCards.count_eq_zero_iff.mp hzero
    have hnil : (s.draws rands).2.tiles = [] := by
      have := (s.draws rands).2.length_tiles
      exact List.length_eq_zero_iff.mp (by omega)
    rw [hnil, List.append_nil] at hperm
    refine ⟨hperm, ?_, hzero, hempty, fun hs => (hs.draws hrands.le).eq_make_false hempty⟩
    rintro before rand after rfl
    rw [List.length_append, List.length_cons] at hrands
    have hbefore := (@MJCards.draws_spec s before (by omega)).2
    exact MJCards.count_draw rand (by omega)

/-- A set of a dragon and a flower, drawn with two values of `rand`. -/
theorem draw_all_two :
    ((((MJCards.make false).addCard ⟨3, 0⟩).addCard ⟨5, 1⟩).draws [5, 8]).1.Perm
      (((MJCards.make false).addCard ⟨3, 0⟩).addCard ⟨5, 1⟩).tiles := by
  have hdragon : ((MJCards.make false).addCard ⟨3, 0⟩).InRange :=
    (MJCards.inRange_make false).addCard (by decide) (by decide)
  have hrange : (((MJCards.make false).addCard ⟨3, 0⟩).addCard ⟨5, 1⟩).InRange :=
    hdragon.addCard (by decide) (by decide)
  exact ((draw_all _ fun card hcard => ⟨MJCards.countCard_nonneg _ hcard,
    hrange.countCard_le card hcard⟩).2.2 [5, 8] (by decide)).1

end MahjongAI
