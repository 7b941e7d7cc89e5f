import Mathlib.Algebra.BigOperators.Fin
import Mathlib.Data.Multiset.OrderedMonoid
import Mathlib.Data.Multiset.UnionInter
import Mathlib.Tactic.IntervalCases
import MahjongAI.Exchange
import MahjongAI.Search

/-!
# Kinds, Blocks and the Hands Behind the Packed Words

The 34 kinds of suited and honour tiles are numbered as the packed hand stores them:
`0`–`8` characters, `9`–`17` dots, `18`–`26` bamboo, `27`–`30` winds, `31`–`33` dragons.
`IsGroup` and `IsPair` are the families of the game, three of a kind or a run of three
in one suit, and two of a kind.

`blockTiles` lists the tiles of a block code, `Tiles.Holds T H` says that the packed
words `T` count the multiset `H`. Over these, the two word operations of the search are
multiset operations: `has_iff` and `Holds.take`.
-/

open Packed

namespace MahjongAI

/-- The kinds of suited and honour tiles. -/
abbrev Kind := Fin 34

instance neZeroKinds : NeZero 34 := ⟨by omega⟩

/-- A run of three can start here: a suited kind of the seven lowest ranks. -/
def RunStart (x : Kind) : Prop :=
  x.val < 27 ∧ x.val % 9 ≤ 6

instance (x : Kind) : Decidable (RunStart x) :=
  inferInstanceAs (Decidable (_ ∧ _))

/-- Three of a kind, or three consecutive ranks of one suit. -/
def IsGroup (m : Multiset Kind) : Prop :=
  (∃ x : Kind, m = {x, x, x}) ∨ ∃ x : Kind, RunStart x ∧ m = {x, x + 1, x + 2}

/-- Two of a kind. -/
def IsPair (m : Multiset Kind) : Prop :=
  ∃ x : Kind, m = {x, x}

/-- A complete hand: `k` groups and a pair. -/
abbrev CompleteHand (k : ℕ) (W : Multiset Kind) : Prop :=
  Exchange.Complete {m | IsGroup m} {m | IsPair m} k W

/-- The number of tiles of a nearest complete hand that `T` lacks. -/
noncomputable abbrev handDist (k : ℕ) (T : Multiset Kind) : ℕ :=
  Exchange.dist {m | IsGroup m} {m | IsPair m} k T

theorem groups_nonempty : {m | IsGroup m}.Nonempty :=
  ⟨{0, 0, 0}, Or.inl ⟨0, rfl⟩⟩

theorem pairs_nonempty : {m | IsPair m}.Nonempty :=
  ⟨{0, 0}, 0, rfl⟩

theorem IsGroup.card {m : Multiset Kind} (h : IsGroup m) : m.card = 3 := by
  rcases h with ⟨x, rfl⟩ | ⟨x, -, rfl⟩ <;> rfl

/-- A complete hand of `k` groups has `3 k + 2` tiles. -/
theorem CompleteHand.card {k : ℕ} {W : Multiset Kind} (h : CompleteHand k W) :
    W.card = 3 * k + 2 := by
  obtain ⟨G, p, rfl, hG, ⟨x, rfl⟩, rfl⟩ := h
  have hsum : ∀ G : Multiset (Multiset Kind), (∀ m ∈ G, IsGroup m) →
      G.sum.card = 3 * G.card := by
    intro G
    induction G using Multiset.induction with
    | empty => simp
    | cons m G ih =>
        intro h
        have hm := (h m (Multiset.mem_cons_self m G)).card
        have ih := ih fun m' hm' => h m' (Multiset.mem_cons_of_mem hm')
        rw [Multiset.sum_cons, Multiset.card_add, hm, ih, Multiset.card_cons]
        ring
  rw [Multiset.card_add, hsum G hG]
  rfl

/-! ### The tiles of a block code -/

/-- The tiles of a block code. -/
def blockTiles (c : ℕ) : List Kind :=
  let i := c % 40
  let tile (rank : ℕ) : Kind := Fin.ofNat 34 (9 * (c / 40) + rank)
  if i < 9 then [tile i, tile i]
  else if i < 18 then [tile (i - 9), tile (i - 9), tile (i - 9)]
  else if i < 25 then [tile (i - 18), tile (i - 18 + 1), tile (i - 18 + 2)]
  else if i < 33 then [tile (i - 25), tile (i - 25 + 1)]
  else [tile (i - 33), tile (i - 33 + 2)]

/-- The least tile of a run that a run or partial run code is part of; the pair of ranks
`7` and `8` is the one partial run that only lies in a run starting below it. -/
def leastRunTile (c : ℕ) : Kind :=
  if c % 40 = 32 then (blockTiles c).headD 0 - 1 else (blockTiles c).headD 0

/-- The block codes whose tiles exist: the component range without the pairs and triplets
of the two honour fields that no tile uses. -/
def LiveCode (c : ℕ) : Prop :=
  c < 138 ∧ c ≠ 127 ∧ c ≠ 128 ∧ c ≠ 136 ∧ c ≠ 137

instance (c : ℕ) : Decidable (LiveCode c) :=
  inferInstanceAs (Decidable (_ ∧ _ ∧ _ ∧ _ ∧ _))

/-- The block of a code as a multiset of kinds. -/
def block (c : ℕ) : Multiset Kind :=
  blockTiles c

/-- A mask counts the ranks of its block, here of the first suit. -/
theorem field_groupMask : ∀ i < 40, ∀ j < 9,
    field 3 (groupMask i) j = (((blockTiles i).map fun t => t.val % 9).count j : ℤ) := by
  decide +kernel

/-- The tiles of a live code have the ranks of its block, and are all of one word. -/
theorem rank_blockTiles : ∀ c < 138, LiveCode c →
    (blockTiles c).map (fun t => t.val % 9) = (blockTiles (c % 40)).map (fun t => t.val % 9) ∧
      (blockTiles c).all fun t => codeColor c = Fin.ofNat 4 (t.val / 9) := by
  decide +kernel

/-- **The mask of a live code** counts the tiles of its block. -/
theorem field_codeMask (c : ℕ) (hc : c < 138) (hlive : LiveCode c) (k : Kind) :
    (if codeColor c = Fin.ofNat 4 (k.val / 9) then field 3 (codeMask c) (k.val % 9) else 0) =
      ((blockTiles c).count k : ℤ) := by
  obtain ⟨hrank, hall⟩ := rank_blockTiles c hc hlive
  have hword : ∀ t ∈ blockTiles c, codeColor c = Fin.ofNat 4 (t.val / 9) := fun t ht =>
    of_decide_eq_true (List.all_eq_true.mp hall t ht)
  have hsame : ∀ t ∈ blockTiles c, codeColor c = Fin.ofNat 4 (k.val / 9) →
      (t.val % 9 = k.val % 9 ↔ t = k) := by
    intro t ht hk
    have hdiv := congrArg Fin.val ((hword t ht).symm.trans hk)
    rw [Fin.val_ofNat, Fin.val_ofNat] at hdiv
    rw [Fin.ext_iff]
    omega
  split
  · rename_i hk
    rw [codeMask, field_groupMask _ (Nat.mod_lt _ (by omega)) _ (Nat.mod_lt _ (by omega)),
      ← hrank, List.count_eq_countP, List.countP_map, List.count_eq_countP]
    refine congrArg Int.ofNat (List.countP_congr fun t ht => ?_)
    simpa using hsame t ht hk
  · rename_i hk
    have hmem : k ∉ blockTiles c := fun hmem => hk (hword k hmem)
    rw [List.count_eq_zero_of_not_mem hmem]
    rfl

/-- A live honour code has no tile in the two unused fields, a dead one has. -/
theorem field_codeMask_unused : ∀ c < 138, codeColor c = 3 →
    (LiveCode c ↔ field 3 (codeMask c) 7 = 0 ∧ field 3 (codeMask c) 8 = 0) := by
  decide +kernel

/-- The word of a live code that is not the honours' is a suit. -/
theorem codeColor_of_lt (c : ℕ) (hc : c < 138) (hcol : codeColor c ≠ 3) : LiveCode c := by
  have hword : c / 40 ≠ 3 := fun h => hcol (by rw [codeColor, h]; rfl)
  rw [LiveCode]
  omega

/-! ### Codes and families

The pair codes are the pairs of the game, the triplet and run codes its groups, and the
codes from `25` up are the two-tile parts of a run. -/

/-- The two-tile parts of a run. -/
def preRuns (x : Kind) : List (List Kind) :=
  [[x, x + 1], [x, x + 2], [x + 1, x + 2]]

/-- **The tiles of a code** that stands for copies of one kind. -/
theorem blockTiles_copies {c : ℕ} (h : c % 40 < 18) :
    blockTiles c = List.replicate (if c % 40 < 9 then 2 else 3) ((blockTiles c).headD 0) := by
  by_cases h9 : c % 40 < 9
  · simp only [blockTiles, if_pos h9]
    rfl
  · simp only [blockTiles, if_neg h9, if_pos h]
    rfl

/-- **The tiles of a code** that stands for a run or a part of one. -/
theorem blockTiles_run : ∀ c < 138, 18 ≤ c % 40 → RunStart (leastRunTile c) ∧
    if c % 40 < 25 then blockTiles c = [leastRunTile c, leastRunTile c + 1, leastRunTile c + 2]
    else blockTiles c ∈ preRuns (leastRunTile c) := by
  decide +kernel

/-- Triplets and runs have three tiles, the other blocks two. -/
theorem length_blockTiles (c : ℕ) :
    (blockTiles c).length = if 9 ≤ c % 40 ∧ c % 40 < 25 then 3 else 2 := by
  have hlength : ∀ {l : List Kind} {n : ℕ}, (9 ≤ c % 40 ∧ c % 40 < 25 ↔ n = 3) →
      (n = 3 ∨ n = 2) → l.length = n → l.length = if 9 ≤ c % 40 ∧ c % 40 < 25 then 3 else 2 := by
    intro l n hiff hn hl
    split <;> omega
  rw [blockTiles]
  simp only
  split
  · exact hlength (n := 2) (by omega) (by omega) rfl
  · split
    · exact hlength (n := 3) (by omega) (by omega) rfl
    · split
      · exact hlength (n := 3) (by omega) (by omega) rfl
      · split
        · exact hlength (n := 2) (by omega) (by omega) rfl
        · exact hlength (n := 2) (by omega) (by omega) rfl

/-- The code at the place `i + x % 9` of the suit of `x`. -/
def codeAt (x : Kind) (i : ℕ) : ℕ :=
  40 * (x.val / 9) + (i + x.val % 9)

/-- **The codes of a kind**: its pair and its triplet. -/
theorem blockTiles_codeAt : ∀ x : Kind,
    blockTiles (codeAt x 0) = [x, x] ∧ blockTiles (codeAt x 9) = [x, x, x] := by
  decide +kernel

/-- **The codes of a run** and of its parts. -/
theorem blockTiles_codeAt_run : ∀ x : Kind, RunStart x →
    blockTiles (codeAt x 18) = [x, x + 1, x + 2] ∧ blockTiles (codeAt x 25) = [x, x + 1] ∧
      blockTiles (codeAt x 26) = [x + 1, x + 2] ∧ blockTiles (codeAt x 33) = [x, x + 2] := by
  decide +kernel

/-- A pair code is a pair. -/
theorem isPair_block (c : ℕ) (hi : c % 40 < 9) : IsPair (block c) := by
  have hcopies := blockTiles_copies (c := c) (by omega)
  rw [if_pos hi] at hcopies
  exact ⟨(blockTiles c).headD 0, by rw [block, hcopies]; rfl⟩

/-- A triplet or run code is a group. -/
theorem isGroup_block (c : ℕ) (hc : c < 138) (h9 : 9 ≤ c % 40) (h25 : c % 40 < 25) :
    IsGroup (block c) := by
  by_cases h18 : c % 40 < 18
  · have hcopies := blockTiles_copies h18
    rw [if_neg (by omega)] at hcopies
    exact Or.inl ⟨(blockTiles c).headD 0, by rw [block, hcopies]; rfl⟩
  · obtain ⟨hstart, hrun⟩ := blockTiles_run c hc (by omega)
    rw [if_pos h25] at hrun
    exact Or.inr ⟨leastRunTile c, hstart, by rw [block, hrun]; rfl⟩

/-- Every two-tile part of a run is completed by the third tile. -/
theorem exists_isGroup_cons_of_mem_preRuns {x : Kind} (hstart : RunStart x) {p : List Kind}
    (hp : p ∈ preRuns x) : ∃ z, IsGroup (z ::ₘ (p : Multiset Kind)) := by
  have hp' : p = [x, x + 1] ∨ p = [x, x + 2] ∨ p = [x + 1, x + 2] := by
    simpa [preRuns] using hp
  rcases hp' with rfl | rfl | rfl
  · refine ⟨x + 2, Or.inr ⟨x, hstart, ?_⟩⟩
    exact Multiset.coe_eq_coe.mpr (List.perm_append_comm : ([x + 2] ++ _).Perm _)
  · exact ⟨x + 1, Or.inr ⟨x, hstart, Multiset.cons_swap (x + 1) x {x + 2}⟩⟩
  · exact ⟨x, Or.inr ⟨x, hstart, rfl⟩⟩

/-- A pair or partial run is one tile away from a group. -/
theorem exists_isGroup_cons_block (c : ℕ) (hc : c < 138)
    (hi : c % 40 < 9 ∨ 25 ≤ c % 40) : ∃ z, IsGroup (z ::ₘ block c) := by
  rcases hi with hi | hi
  · obtain ⟨x, hx⟩ := isPair_block c hi
    exact ⟨x, Or.inl ⟨x, by rw [hx]; rfl⟩⟩
  · obtain ⟨hstart, hpre⟩ := blockTiles_run c hc (by omega)
    rw [if_neg (by omega)] at hpre
    exact exists_isGroup_cons_of_mem_preRuns hstart hpre

/-- A pair or partial run has two tiles. -/
theorem card_block_of_two (c : ℕ) (hi : c % 40 < 9 ∨ 25 ≤ c % 40) : (block c).card = 2 :=
  (length_blockTiles c).trans (if_neg (by omega))

/-- Every block has two tiles at least. -/
theorem two_le_card_block (c : ℕ) : 2 ≤ (block c).card := by
  have hlength : (block c).card = _ := length_blockTiles c
  split at hlength <;> omega

/-- A triplet or run has three tiles. -/
theorem card_block_of_three (c : ℕ) (h9 : 9 ≤ c % 40) (h25 : c % 40 < 25) :
    (block c).card = 3 :=
  (length_blockTiles c).trans (if_pos ⟨h9, h25⟩)

/-- Every pair of the game has a code. -/
theorem exists_code_of_pair (x : Kind) :
    ∃ c, LiveCode c ∧ c % 40 < 9 ∧ block c = {x, x} := by
  have hx := x.isLt
  refine ⟨codeAt x 0, ?_, ?_, by rw [block, (blockTiles_codeAt x).1]; rfl⟩
  · simp only [LiveCode, codeAt]
    omega
  · rw [codeAt]
    omega

/-- Every group of the game has a code. -/
theorem exists_code_of_group {m : Multiset Kind} (h : IsGroup m) :
    ∃ c, LiveCode c ∧ 9 ≤ c % 40 ∧ c % 40 < 25 ∧ block c = m := by
  rcases h with ⟨x, rfl⟩ | ⟨x, ⟨hsuit, hrank⟩, rfl⟩
  · have hx := x.isLt
    refine ⟨codeAt x 9, ?_, ?_, ?_, by rw [block, (blockTiles_codeAt x).2]; rfl⟩
    · simp only [LiveCode, codeAt]
      omega
    · rw [codeAt]
      omega
    · rw [codeAt]
      omega
  · refine ⟨codeAt x 18, ?_, ?_, ?_,
      by rw [block, (blockTiles_codeAt_run x ⟨hsuit, hrank⟩).1]; rfl⟩
    · simp only [LiveCode, codeAt]
      omega
    · rw [codeAt]
      omega
    · rw [codeAt]
      omega

/-- Every two-tile part of a run has a code. -/
theorem exists_code_of_mem_preRuns {x : Kind} (hstart : RunStart x) {p : List Kind}
    (hp : p ∈ preRuns x) : ∃ c, LiveCode c ∧ 25 ≤ c % 40 ∧ blockTiles c = p := by
  obtain ⟨-, hlow, hhigh, hends⟩ := blockTiles_codeAt_run x hstart
  obtain ⟨hsuit, hrank⟩ := hstart
  have hlive : ∀ i, 25 ≤ i → i ≤ 33 → LiveCode (codeAt x i) ∧ 25 ≤ codeAt x i % 40 := by
    intro i hi hi'
    simp only [LiveCode, codeAt]
    omega
  have hp' : p = [x, x + 1] ∨ p = [x, x + 2] ∨ p = [x + 1, x + 2] := by
    simpa [preRuns] using hp
  rcases hp' with rfl | rfl | rfl
  · exact ⟨_, (hlive 25 (by omega) (by omega)).1, (hlive 25 (by omega) (by omega)).2, hlow⟩
  · exact ⟨_, (hlive 33 (by omega) (by omega)).1, (hlive 33 (by omega) (by omega)).2, hends⟩
  · exact ⟨_, (hlive 26 (by omega) (by omega)).1, (hlive 26 (by omega) (by omega)).2, hhigh⟩

/-- Two tiles of a group are the group without the third. -/
theorem exists_eq_cons_of_two {m s : Multiset Kind} (h : IsGroup m) (hle : s ≤ m)
    (hcard : s.card = 2) : ∃ z, m = z ::ₘ s := by
  have hone : (m - s).card = 1 := by
    rw [Multiset.card_sub hle, h.card, hcard]
  obtain ⟨z, hz⟩ := Multiset.card_eq_one.mp hone
  refine ⟨z, ?_⟩
  rw [← Multiset.singleton_add, ← hz, tsub_add_cancel_of_le hle]

/-- Every two tiles of a group have a code: a pair of the triplet, or a partial run. -/
theorem exists_code_of_two {m s : Multiset Kind} (h : IsGroup m) (hle : s ≤ m)
    (hcard : s.card = 2) :
    ∃ c, LiveCode c ∧ (c % 40 < 9 ∨ 25 ≤ c % 40) ∧ block c = s := by
  obtain ⟨z, hz⟩ := exists_eq_cons_of_two h hle hcard
  have hmem : z ∈ m := hz ▸ Multiset.mem_cons_self z s
  rcases h with ⟨x, rfl⟩ | ⟨x, hstart, rfl⟩
  · obtain rfl : z = x := by simpa using hmem
    obtain ⟨c, hlive, hi, hc⟩ := exists_code_of_pair z
    exact ⟨c, hlive, Or.inl hi, hc.trans ((Multiset.cons_inj_right z).mp hz)⟩
  · obtain ⟨p, hp, hps⟩ : ∃ p ∈ preRuns x, (p : Multiset Kind) = s := by
      have hz' : z = x ∨ z = x + 1 ∨ z = x + 2 := by simpa using hmem
      rcases hz' with rfl | rfl | rfl
      · exact ⟨[z + 1, z + 2], by simp [preRuns], (Multiset.cons_inj_right z).mp hz⟩
      · refine ⟨[x, x + 2], by simp [preRuns], (Multiset.cons_inj_right (x + 1)).mp ?_⟩
        exact (Multiset.cons_swap (x + 1) x {x + 2}).trans hz
      · refine ⟨[x, x + 1], by simp [preRuns], (Multiset.cons_inj_right (x + 2)).mp ?_⟩
        have hlast : ((x + 2) ::ₘ ↑[x, x + 1] : Multiset Kind) = {x, x + 1, x + 2} :=
          Multiset.coe_eq_coe.mpr (List.perm_append_comm : ([x + 2] ++ _).Perm _)
        exact hlast.trans hz
    obtain ⟨c, hlive, hi, hc⟩ := exists_code_of_mem_preRuns hstart hp
    exact ⟨c, hlive, Or.inr hi, by rw [block, hc, hps]⟩

/-! ### The hand behind the packed words -/

/-- The packed words count the multiset `H`; the two unused honour fields are empty. -/
structure Tiles.Holds (T : Tiles) (H : Multiset Kind) : Prop where
  get_eq : ∀ k : Kind, T.get k.val = H.count k
  unused : T.get 34 = 0 ∧ T.get 35 = 0

/-- The packed words of a hand. -/
def packHand (H : Multiset Kind) : Tiles :=
  ⟨fun i => pack 3 9 fun j => if h : 9 * i.val + j < 34 then H.count ⟨9 * i.val + j, h⟩ else 0⟩

/-- Field `j` of word `i` is cell `9 * i + j`. -/
theorem get_cell (T : Tiles) (i : Fin 4) {j : ℕ} (hj : j < 9) :
    T.get (9 * i.val + j) = field 3 (T.tiles i) j := by
  rw [Tiles.get]
  congr 1
  · congr 1
    ext
    simp only [Fin.val_ofNat]
    omega
  · omega

/-- Every hand of less than eight copies of each kind has packed words. -/
theorem holds_packHand {H : Multiset Kind} (h : ∀ x, H.count x < 8) : (packHand H).Holds H := by
  have hfield : ∀ (i : Fin 4) {j : ℕ}, j < 9 → field 3 ((packHand H).tiles i) j =
      if h : 9 * i.val + j < 34 then (H.count ⟨9 * i.val + j, h⟩ : ℤ) else 0 := by
    intro i j hj
    rw [packHand, field_pack _ _ hj]
    · intro j _
      split <;> omega
    · intro j _
      split
      · exact_mod_cast h _
      · norm_num
  have hget : ∀ k < 36, (packHand H).get k = if h : k < 34 then (H.count ⟨k, h⟩ : ℤ) else 0 := by
    intro k hk
    have hcell : k = 9 * (Fin.ofNat 4 (k / 9)).val + k % 9 := by
      simp only [Fin.val_ofNat]
      omega
    rw [Tiles.get, hfield _ (Nat.mod_lt k (by norm_num))]
    simp only [← hcell]
  exact ⟨fun k => by rw [hget k (by omega), dif_pos k.isLt], hget 34 (by norm_num),
    hget 35 (by norm_num)⟩

theorem haveMask_iff {t m : ℤ} :
    haveMask t m = true ↔ ∀ i < 9, field 3 m i ≤ field 3 t i := by
  simp [haveMask]

/-- **Block test.** A component fits exactly when its tiles exist and the hand has them. -/
theorem Tiles.Holds.has_iff {T : Tiles} {H : Multiset Kind} (h : T.Holds H) {c : ℕ}
    (hc : c < 138) : T.has c = true ↔ LiveCode c ∧ block c ≤ H := by
  rw [Tiles.has]
  rw [haveMask_iff]
  constructor
  · intro hfit
    have hlive : LiveCode c := by
      by_cases hcol : codeColor c = 3
      · rw [field_codeMask_unused c hc hcol]
        have h7 := hfit 7 (by norm_num)
        have h8 := hfit 8 (by norm_num)
        have hu7 := h.unused.1
        have hu8 := h.unused.2
        rw [show 34 = 9 * (3 : Fin 4).val + 7 from rfl, get_cell T 3 (by norm_num)] at hu7
        rw [show 35 = 9 * (3 : Fin 4).val + 8 from rfl, get_cell T 3 (by norm_num)] at hu8
        rw [hcol, hu7] at h7
        rw [hcol, hu8] at h8
        have := field_nonneg 3 (codeMask c) 7
        have := field_nonneg 3 (codeMask c) 8
        omega
      · exact codeColor_of_lt c hc hcol
    refine ⟨hlive, Multiset.le_iff_count.mpr fun k => ?_⟩
    have hmask := field_codeMask c hc hlive k
    have hget := h.get_eq k
    rw [block, Multiset.coe_count]
    rw [Tiles.get] at hget
    by_cases hcol : codeColor c = Fin.ofNat 4 (k.val / 9)
    · rw [if_pos hcol] at hmask
      have hle := hfit (k.val % 9) (Nat.mod_lt _ (by norm_num))
      rw [hcol, hget, hmask] at hle
      exact_mod_cast hle
    · rw [if_neg hcol] at hmask
      omega
  · rintro ⟨hlive, hle⟩ j hj
    by_cases hk : 9 * (codeColor c).val + j < 34
    · have hmask := field_codeMask c hc hlive ⟨_, hk⟩
      have hget := h.get_eq ⟨_, hk⟩
      have hcount := Multiset.le_iff_count.mp hle ⟨_, hk⟩
      have hcol : codeColor c = Fin.ofNat 4 ((9 * (codeColor c).val + j) / 9) := by
        have hdiv : (9 * (codeColor c).val + j) / 9 = (codeColor c).val := by omega
        rw [hdiv]
        exact (Fin.ofNat_val_eq_self _).symm
      have hmod : (9 * (codeColor c).val + j) % 9 = j := by omega
      rw [if_pos hcol] at hmask
      simp only [hmod] at hmask
      simp only [get_cell T _ hj] at hget
      rw [block, Multiset.coe_count] at hcount
      rw [hmask, hget]
      exact_mod_cast hcount
    · have hcol : codeColor c = 3 := by
        have := (codeColor c).isLt
        exact Fin.ext (show (codeColor c).val = 3 by omega)
      have hzero := (field_codeMask_unused c hc hcol).mp hlive
      have hj' : j = 7 ∨ j = 8 := by
        rw [hcol] at hk
        have : (3 : Fin 4).val = 3 := rfl
        omega
      have hnonneg := field_nonneg 3 (T.tiles (codeColor c)) j
      rcases hj' with rfl | rfl
      · omega
      · omega

/-- **Taking a block off.** The words of the rest count the rest of the hand: no field
borrows from its neighbour. -/
theorem Tiles.Holds.take {T : Tiles} {H : Multiset Kind} (h : T.Holds H) {c : ℕ}
    (hc : c < 138) (hhas : T.has c = true) : (T.take c).Holds (H - block c) := by
  obtain ⟨hlive, -⟩ := (h.has_iff hc).mp hhas
  have hfit : ∀ i < 9, field 3 (codeMask c) i ≤ field 3 (T.tiles (codeColor c)) i :=
    haveMask_iff.mp hhas
  have hget : ∀ (k : ℕ), (T.take c).get k =
      if codeColor c = Fin.ofNat 4 (k / 9) then T.get k - field 3 (codeMask c) (k % 9)
      else T.get k := by
    intro k
    have hk9 : k % 9 < 9 := Nat.mod_lt _ (by norm_num)
    simp only [Tiles.take, Tiles.get]
    by_cases hcol : codeColor c = Fin.ofNat 4 (k / 9)
    · rw [if_pos hcol, ← hcol, Function.update_self]
      exact field_sub fun j hj => hfit j (by omega)
    · rw [if_neg hcol, Function.update_of_ne fun h => hcol h.symm]
  refine ⟨fun k => ?_, ?_⟩
  · have hmask := field_codeMask c hc hlive k
    have hle := Multiset.le_iff_count.mp ((h.has_iff hc).mp hhas).2 k
    rw [block, Multiset.coe_count] at hle
    rw [hget, h.get_eq, Multiset.count_sub, block, Multiset.coe_count]
    split
    · rename_i hcol
      rw [if_pos hcol] at hmask
      omega
    · rename_i hcol
      rw [if_neg hcol] at hmask
      omega
  · by_cases hcol : codeColor c = 3
    · obtain ⟨h7, h8⟩ := (field_codeMask_unused c hc hcol).mp hlive
      have hcell7 : codeColor c = Fin.ofNat 4 (34 / 9) := hcol
      have hcell8 : codeColor c = Fin.ofNat 4 (35 / 9) := hcol
      rw [hget, hget, if_pos hcell7, if_pos hcell8, h.unused.1, h.unused.2]
      exact ⟨by rw [show 34 % 9 = 7 from rfl, h7]; rfl,
        by rw [show 35 % 9 = 8 from rfl, h8]; rfl⟩
    · have hcell7 : codeColor c ≠ Fin.ofNat 4 (34 / 9) := hcol
      have hcell8 : codeColor c ≠ Fin.ofNat 4 (35 / 9) := hcol
      rw [hget, hget, if_neg hcell7, if_neg hcell8]
      exact h.unused

/-- The size of the packed hand is the number of its tiles. -/
theorem Tiles.Holds.size_eq {T : Tiles} {H : Multiset Kind} (h : T.Holds H) :
    T.size = H.card := by
  have hrange : List.range 36 = (List.finRange 34).map Fin.val ++ [34, 35] := by decide
  have hcard : H.card = ((List.finRange 34).map fun k => H.count k).sum := by
    rw [← Fin.sum_univ_def, ← Multiset.toFinset_sum_count_eq]
    exact Finset.sum_subset (Finset.subset_univ _) fun k _ hk => by simpa using hk
  rw [Tiles.size]
  rw [hrange, List.map_append, List.map_map, List.sum_append, hcard]
  have hunused : (List.map (fun k => (T.get k).toNat) [34, 35]).sum = 0 := by
    simp [h.unused.1, h.unused.2]
  rw [hunused, add_zero]
  congr 1
  refine List.map_congr_left fun k _ => ?_
  simp [h.get_eq k]

end MahjongAI
