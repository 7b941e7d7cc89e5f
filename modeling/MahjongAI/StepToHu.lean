import Mathlib.Algebra.Order.BigOperators.Group.Finset
import MahjongAI.Decompositions

/-!
# The Step Count is the Exchange Distance

`stepToHu1617` never looks at complete hands: it scores decompositions of the hand. For a
hand of `3 k + 1` or `3 k + 2` tiles the best score is the distance of the hand to the
complete hands of `k` groups and a pair.

* Upper bound: the blocks of a decomposition are parts of a complete hand that lacks as
  many tiles as the score says (`handDist_le_leafSteps`).
* Lower bound: the tiles a complete hand shares with the hand contain blocks that score at
  most the tiles it lacks (`exists_blocks_leafSteps_le`), and the search extends them
  without raising the score.

## Main results

* `stepToHu1617_eq_handDist`: the general statement, for any hand of less than `150` tiles
  held by packed words.
* `isLeast_stepToHu1617`: the step count of the packed hand is the minimum over all
  complete hands, and zero exactly for the complete hands.
-/

open Packed

namespace MahjongAI

/-! ### The upper bound -/

/-- A group code is a whole group. -/
theorem part_block_of_group {c : ℕ} (hlive : LiveCode c) (hc : isGroupCode c = true) :
    Exchange.Part {m | IsGroup m} 1 (block c) 0 := by
  have hi : 9 ≤ c % 40 ∧ c % 40 < 25 := by simpa [isGroupCode] using hc
  have h := isGroup_block c hlive.1 hi.1 hi.2
  exact Exchange.part_one (M := 0) (by simpa using h)

/-- Any other code lacks one tile of a group. -/
theorem part_block_of_two {c : ℕ} (hlive : LiveCode c) (hc : isGroupCode c = false) :
    Exchange.Part {m | IsGroup m} 1 (block c) 1 := by
  have hi : ¬(9 ≤ c % 40 ∧ c % 40 < 25) := by simpa [isGroupCode] using hc
  obtain ⟨z, hz⟩ := exists_isGroup_cons_block c hlive.1 (by omega)
  exact Exchange.part_one (M := {z}) (by rwa [add_comm, Multiset.singleton_add])

/-- A single tile lacks two tiles of its triplet. -/
theorem part_singleton (x : Kind) : Exchange.Part {m | IsGroup m} 1 {x} 2 :=
  Exchange.part_one (M := {x, x}) (Or.inl ⟨x, rfl⟩)

/-- **Completing a selection.** The groups `Lg`, the two-tile blocks `L2`, the head part
`B` and `r` more tiles of the hand are parts of a complete hand. -/
theorem handDist_le_of_selection {k r : ℕ} {H B M : Multiset Kind} {Lg L2 : List ℕ}
    (hLg : ∀ c ∈ Lg, LiveCode c ∧ isGroupCode c = true)
    (hL2 : ∀ c ∈ L2, LiveCode c ∧ isGroupCode c = false) (hB : IsPair (B + M))
    (hle : tilesOf Lg + tilesOf L2 + B ≤ H)
    (hr : (tilesOf Lg + tilesOf L2 + B).card + r ≤ H.card)
    (hk : Lg.length + L2.length + r = k) : handDist k H ≤ L2.length + 2 * r + M.card := by
  set U := tilesOf Lg + tilesOf L2 + B with hU
  -- the single tiles that start the groups nothing else starts
  set S := ((H - U).toList.take r).map fun x => ({x} : Multiset Kind) with hS
  have hlen : S.length = r := by
    rw [hS, List.length_map, List.length_take, Multiset.length_toList, Multiset.card_sub hle]
    omega
  have hsum : S.sum ≤ H - U := by
    have htake : S.sum = ((H - U).toList.take r : Multiset Kind) := by
      rw [hS, ← Multiset.sum_coe, ← Multiset.map_coe, Multiset.sum_map_singleton]
    rw [htake]
    calc (((H - U).toList.take r : List Kind) : Multiset Kind)
        ≤ ((H - U).toList : Multiset Kind) := (List.take_sublist _ _).subperm
      _ = H - U := Multiset.coe_toList _
  have hgroups := Exchange.part_sum (𝒢 := {m | IsGroup m}) (L := Lg.map block) (d := 0) (by
    intro m hm
    obtain ⟨c, hc, rfl⟩ := List.mem_map.mp hm
    exact part_block_of_group (hLg c hc).1 (hLg c hc).2)
  have htwos := Exchange.part_sum (𝒢 := {m | IsGroup m}) (L := L2.map block) (d := 1) (by
    intro m hm
    obtain ⟨c, hc, rfl⟩ := List.mem_map.mp hm
    exact part_block_of_two (hL2 c hc).1 (hL2 c hc).2)
  have hsingles := Exchange.part_sum (𝒢 := {m | IsGroup m}) (L := S) (d := 2) (by
    intro m hm
    obtain ⟨x, -, rfl⟩ := List.mem_map.mp hm
    exact part_singleton x)
  have hparts := (hgroups.add htwos).add hsingles
  rw [List.length_map, List.length_map, hlen, hk] at hparts
  have hfit : (Lg.map block).sum + (L2.map block).sum + S.sum + B ≤ H := by
    rw [add_right_comm]
    calc tilesOf Lg + tilesOf L2 + B + S.sum ≤ U + (H - U) := by gcongr
      _ = H := add_tsub_cancel_of_le hle
  have hhead : B + M ∈ {m | IsPair m} := hB
  have h : handDist k H ≤ _ := Exchange.dist_le_of_part hparts hhead hfit
  omega

/-- **Upper bound.** A decomposition leads to a complete hand that lacks no more tiles than
its steps say. -/
theorem handDist_le_leafSteps {k : ℕ} {H : Multiset Kind} {L : List ℕ}
    (hH : H.card = 3 * k + 1 ∨ H.card = 3 * k + 2) (hL : ∀ c ∈ L, LiveCode c)
    (hle : tilesOf L ≤ H) :
    (handDist k H : ℤ) ≤
      leafSteps k (L.countP isGroupCode) (L.countP isPreGroupCode) (L.countP isPairCode) := by
  set Lg := L.filter isGroupCode with hLgdef
  set L2 := L.filter fun c => !isGroupCode c with hL2def
  have hperm : (Lg ++ L2).Perm L := List.filter_append_perm isGroupCode L
  have hLg : ∀ c ∈ Lg, LiveCode c ∧ isGroupCode c = true := fun c hc =>
    ⟨hL c (List.mem_of_mem_filter hc), List.of_mem_filter hc⟩
  have hL2 : ∀ c ∈ L2, LiveCode c ∧ isGroupCode c = false := fun c hc =>
    ⟨hL c (List.mem_of_mem_filter hc), by simpa using List.of_mem_filter hc⟩
  have hfit : tilesOf Lg + tilesOf L2 ≤ H := by
    rw [← tilesOf_append, tilesOf_perm hperm]
    exact hle
  have hlenG : Lg.length = L.countP isGroupCode := List.countP_eq_length_filter.symm
  have hcardG : (tilesOf Lg).card = Lg.length * 3 := card_tilesOf_of_group hLg
  have hcard2 : ∀ L' : List ℕ, L'.Sublist L2 → (tilesOf L').card = L'.length * 2 := by
    intro L' hsub
    exact card_tilesOf_of_two fun c hc => hL2 c (hsub.subset hc)
  have hcard := Multiset.card_le_card hfit
  rw [Multiset.card_add, hcardG, hcard2 L2 (List.Sublist.refl L2)] at hcard
  have hlen2 : L2.length = L.countP isPreGroupCode + L.countP isPairCode := by
    have hsum := card_tilesOf hL
    rw [← tilesOf_perm hperm, tilesOf_append, Multiset.card_add, hcardG,
      hcard2 L2 (List.Sublist.refl L2)] at hsum
    omega
  by_cases hq : L.countP isPairCode = 0
  · -- no pair: one more tile of the hand becomes the head
    set m := min L2.length (k - Lg.length) with hm
    have hsub : (L2.take m).Sublist L2 := List.take_sublist m L2
    have hfit' : tilesOf Lg + tilesOf (L2.take m) ≤ H :=
      (add_le_add_right (tilesOf_sublist hsub) _).trans hfit
    have hcardU : (tilesOf Lg + tilesOf (L2.take m)).card = Lg.length * 3 + m * 2 := by
      rw [Multiset.card_add, hcardG, hcard2 _ hsub, List.length_take]
      congr 2
      omega
    have hpos : 0 < (H - (tilesOf Lg + tilesOf (L2.take m))).card := by
      rw [Multiset.card_sub hfit', hcardU]
      omega
    obtain ⟨x, hx⟩ := Multiset.card_pos_iff_exists_mem.mp hpos
    have hfull : tilesOf Lg + tilesOf (L2.take m) + {x} ≤ H := by
      rw [← le_tsub_iff_left hfit', Multiset.singleton_le]
      exact hx
    have h := handDist_le_of_selection (r := k - Lg.length - m) (M := {x}) hLg
      (fun c hc => hL2 c (hsub.subset hc)) ⟨x, rfl⟩ hfull
      (by rw [Multiset.card_add, hcardU, Multiset.card_singleton]; omega)
      (k := k) (by rw [List.length_take]; omega)
    rw [List.length_take, Multiset.card_singleton] at h
    rw [leafSteps]
    rw [if_pos hq]
    omega
  · -- one pair becomes the head
    obtain ⟨c, hcL, hcpair⟩ := List.countP_pos_iff.mp (Nat.pos_of_ne_zero hq)
    have hc9 : c % 40 < 9 := by simpa [isPairCode] using hcpair
    have hc2 : c ∈ L2 := List.mem_filter.mpr ⟨hcL, by simp [isGroupCode]; omega⟩
    obtain ⟨hlive, -⟩ := hL2 c hc2
    set m := min (L2.length - 1) (k - Lg.length) with hm
    have hlenE : (L2.erase c).length = L2.length - 1 := List.length_erase_of_mem hc2
    have hpos : 0 < L2.length := List.length_pos_of_mem hc2
    have hsub : (L2.erase c).take m |>.Sublist L2 :=
      (List.take_sublist _ _).trans List.erase_sublist
    have hsplit : tilesOf L2 = tilesOf (L2.erase c) + block c := by
      rw [tilesOf_perm (List.perm_cons_erase hc2), tilesOf_cons, add_comm]
    have hfull : tilesOf Lg + tilesOf ((L2.erase c).take m) + block c ≤ H := by
      refine le_trans ?_ hfit
      rw [hsplit, ← add_assoc]
      gcongr
      exact tilesOf_sublist (List.take_sublist _ _)
    have hblock := card_block_of_two c (Or.inl hc9)
    have hcardU : (tilesOf Lg + tilesOf ((L2.erase c).take m) + block c).card =
        Lg.length * 3 + m * 2 + 2 := by
      rw [Multiset.card_add, Multiset.card_add, hcardG, hcard2 _ hsub, List.length_take, hblock]
      congr 3
      omega
    have h := handDist_le_of_selection (r := k - Lg.length - m) (M := 0) hLg
      (fun c hc => hL2 c (hsub.subset hc))
      (by simpa using isPair_block c hc9) hfull
      (by rw [hcardU]; omega) (k := k) (by rw [List.length_take]; omega)
    rw [List.length_take, Multiset.card_zero] at h
    rw [leafSteps]
    rw [if_neg hq]
    omega

/-! ### The lower bound -/

/-- The part of a group that a hand holds is a block code, but for one tile. -/
theorem exists_blocks_of_le_group {m s : Multiset Kind} (hm : IsGroup m) (hs : s ≤ m) :
    ∃ L : List ℕ, (∀ c ∈ L, LiveCode c) ∧ tilesOf L ≤ s ∧ L.length ≤ 1 ∧
      s.card ≤ L.length + L.countP isGroupCode + 1 := by
  have hcard := Multiset.card_le_card hs
  rw [hm.card] at hcard
  by_cases hthree : s.card = 3
  · obtain rfl : s = m := Multiset.eq_of_le_of_card_le hs (by rw [hm.card, hthree])
    obtain ⟨c, hlive, h9, h25, rfl⟩ := exists_code_of_group hm
    have hc : isGroupCode c = true := by simp [isGroupCode, h9, h25]
    exact ⟨[c], by simpa using hlive, by simp, by simp, by simp [hc, hthree]⟩
  · by_cases htwo : s.card = 2
    · obtain ⟨c, hlive, -, rfl⟩ := exists_code_of_two hm hs htwo
      exact ⟨[c], by simpa using hlive, by simp, by simp, by rw [htwo]; simp⟩
    · exact ⟨[], by simp, by simp, by simp, by simp; omega⟩

/-- The parts of several groups give blocks for all but one tile of each. -/
theorem exists_blocks_of_parts {P G : List (Multiset Kind)}
    (h : List.Forall₂ (· ≤ ·) P G) (hG : ∀ m ∈ G, IsGroup m) :
    ∃ L : List ℕ, (∀ c ∈ L, LiveCode c) ∧ tilesOf L ≤ P.sum ∧ L.length ≤ G.length ∧
      P.sum.card ≤ L.length + L.countP isGroupCode + G.length := by
  induction h with
  | nil => exact ⟨[], by simp, by simp, by simp, by simp⟩
  | cons hs _ ih =>
      obtain ⟨L, hlive, hle, hlen, hcard⟩ := ih fun m hm => hG m (List.mem_cons_of_mem _ hm)
      obtain ⟨L₁, hlive₁, hle₁, hlen₁, hcard₁⟩ :=
        exists_blocks_of_le_group (hG _ List.mem_cons_self) hs
      refine ⟨L₁ ++ L, ?_, ?_, ?_, ?_⟩
      · intro c hc
        rcases List.mem_append.mp hc with hc | hc
        · exact hlive₁ c hc
        · exact hlive c hc
      · rw [tilesOf_append, List.sum_cons]
        gcongr
      · rw [List.length_append, List.length_cons]
        omega
      · rw [List.sum_cons, Multiset.card_add, List.length_append, List.countP_append,
          List.length_cons]
        omega

/-- The part of a pair that a hand holds is a pair code, or at most one tile. -/
theorem exists_blocks_of_le_pair {p s : Multiset Kind} (hp : IsPair p) (hs : s ≤ p) :
    ∃ L : List ℕ, (∀ c ∈ L, LiveCode c ∧ isPairCode c = true) ∧ tilesOf L ≤ s ∧
      L.length ≤ 1 ∧ s.card ≤ L.length + 1 := by
  obtain ⟨x, rfl⟩ := hp
  have hcard : s.card ≤ 2 := Multiset.card_le_card hs
  by_cases htwo : s.card = 2
  · obtain rfl : s = {x, x} := Multiset.eq_of_le_of_card_le hs (by rw [htwo]; rfl)
    obtain ⟨c, hlive, hi, hc⟩ := exists_code_of_pair x
    exact ⟨[c], by simp [hlive, isPairCode, hi], by simp [hc], by simp, by simp⟩
  · exact ⟨[], by simp, by simp, by simp, by simp; omega⟩

/-- Every block is a group, a partial run or a pair. -/
theorem length_eq_countP (L : List ℕ) :
    L.length = L.countP isGroupCode + L.countP isPreGroupCode + L.countP isPairCode := by
  induction L with
  | nil => rfl
  | cons c L ih =>
      have hone : (1 : ℕ) = (if isGroupCode c = true then 1 else 0) +
          (if isPreGroupCode c = true then 1 else 0) + if isPairCode c = true then 1 else 0 := by
        simp only [isGroupCode, isPreGroupCode, isPairCode, decide_eq_true_eq]
        split <;> split <;> split <;> omega
      rw [List.length_cons, List.countP_cons, List.countP_cons, List.countP_cons]
      omega

/-- **Lower bound.** The tiles a complete hand shares with the hand contain blocks that
score at most the number of tiles it lacks. -/
theorem exists_blocks_leafSteps_le {k : ℕ} {H W : Multiset Kind} (hW : CompleteHand k W) :
    ∃ L : List ℕ, (∀ c ∈ L, LiveCode c) ∧ tilesOf L ≤ H ∧
      leafSteps k (L.countP isGroupCode) (L.countP isPreGroupCode) (L.countP isPairCode) ≤
        (W - H).card := by
  have hWcard := hW.card
  obtain ⟨G, p, rfl, hG, hp, rfl⟩ := hW
  obtain ⟨Gs, rfl⟩ : ∃ Gs : List (Multiset Kind), (Gs : Multiset (Multiset Kind)) = G :=
    ⟨G.toList, Multiset.coe_toList G⟩
  set W : Multiset Kind := (Gs : Multiset (Multiset Kind)).sum + p with hWdef
  -- the shared tiles, split along the groups and the head
  have hshared : W ∩ H ≤ (p :: Gs).sum := by
    rw [List.sum_cons, add_comm, ← Multiset.sum_coe]
    exact Multiset.inter_le_left
  obtain ⟨P₀, hP₀, hsum⟩ := Exchange.exists_parts_of_le_sum hshared
  obtain ⟨s, P, hs, hP, rfl⟩ := List.forall₂_cons_right_iff.mp hP₀
  obtain ⟨L, hlive, hle, hlen, hcard⟩ :=
    exists_blocks_of_parts hP fun m hm => hG m (Multiset.mem_coe.mpr hm)
  obtain ⟨Lp, hlivep, hlep, hlenp, hcardp⟩ := exists_blocks_of_le_pair hp hs
  have hpair : Lp.countP isPairCode = Lp.length :=
    List.countP_eq_length.mpr fun c hc => (hlivep c hc).2
  refine ⟨Lp ++ L, ?_, ?_, ?_⟩
  · intro c hc
    rcases List.mem_append.mp hc with hc | hc
    · exact (hlivep c hc).1
    · exact hlive c hc
  · calc tilesOf (Lp ++ L) = tilesOf Lp + tilesOf L := tilesOf_append Lp L
      _ ≤ s + P.sum := by gcongr
      _ = W ∩ H := by rw [← hsum, List.sum_cons]
      _ ≤ H := Multiset.inter_le_right
  · have hsplit := congrArg Multiset.card (Multiset.sub_add_inter W H)
    rw [Multiset.card_add, ← hsum, List.sum_cons, Multiset.card_add, hWcard] at hsplit
    have hallp := length_eq_countP Lp
    have hall := length_eq_countP L
    simp only [List.countP_append, Multiset.coe_card] at *
    rw [leafSteps]
    split <;> omega

/-! ### The step count -/

/-- The components of a hand are block codes in increasing order, and all that fit. -/
theorem getComponent_spec {T : Tiles} {H : Multiset Kind} (h : T.Holds H) :
    (∀ c ∈ getComponent T, c < 138) ∧ (getComponent T).Pairwise (· < ·) ∧
      ∀ c, LiveCode c → block c ≤ H → c ∈ getComponent T := by
  refine ⟨fun c hc => ?_, ?_, fun c hlive hle => ?_⟩
  · exact List.mem_range.mp (List.mem_of_mem_filter hc)
  · exact List.Pairwise.filter _ List.pairwise_lt_range
  · exact List.mem_filter.mpr
      ⟨List.mem_range.mpr hlive.1, (h.has_iff hlive.1).mpr ⟨hlive, hle⟩⟩

/-- The search of the whole hand has a result. -/
theorem Tiles.Holds.exists_result {T : Tiles} {H : Multiset Kind} (h : T.Holds H) :
    ∃ R, ∀ fuel, T.size < fuel → findGroups fuel T (getComponent T) [] = some R := by
  rw [h.size_eq]
  exact exists_findGroups h (getComponent_spec h).1 []

/-- **Blocks that fit together** begin some result of the search, in some order. -/
theorem exists_result_of_le {T : Tiles} {H : Multiset Kind} (h : T.Holds H) {L : List ℕ}
    (hlive : ∀ c ∈ L, LiveCode c) (hle : tilesOf L ≤ H) {R : List Groups}
    (hR : findGroups (T.size + 1) T (getComponent T) [] = some R) :
    ∃ G ∈ R, ∃ L₀ L', L₀.Perm L ∧ IsDecomposition H [] (L₀ ++ L') G.code := by
  obtain ⟨hcomp, hsorted, hall⟩ := getComponent_spec h
  have hperm : (L.insertionSort (· ≤ ·)).Perm L := List.perm_insertionSort _ L
  have hmem : ∀ c ∈ L.insertionSort (· ≤ ·), c ∈ getComponent T ∧ LiveCode c := by
    intro c hc
    have hc := hperm.mem_iff.mp hc
    exact ⟨hall c (hlive c hc) ((block_le_tilesOf hc).trans hle), hlive c hc⟩
  obtain ⟨G, hG, L', hdec⟩ : ∃ G ∈ R,
      ∃ L', IsDecomposition H [] (L.insertionSort (· ≤ ·) ++ L') G.code :=
    exists_mem_findGroups h hcomp hsorted (List.pairwise_insertionSort _ L) hmem
      (by rw [tilesOf_perm hperm]; exact hle) (by rw [h.size_eq]; omega) hR
  exact ⟨G, hG, _, L', hperm, hdec⟩

/-- **The step count is the exchange distance**, for every hand of `3 k + 1` or `3 k + 2`
tiles that the packed words can hold. -/
theorem stepToHu1617_eq_handDist {k : ℕ} {T : Tiles} {H : Multiset Kind} (h : T.Holds H)
    (hH : H.card = 3 * k + 1 ∨ H.card = 3 * k + 2) (hlt : H.card < 150) :
    stepToHu1617 T = handDist k H := by
  have hcomp := (getComponent_spec h).1
  have hk : H.card / 3 = k := by omega
  obtain ⟨R, hR⟩ := h.exists_result
  replace hR := hR (T.size + 1) (Nat.lt_succ_self _)
  -- every result scores at least the distance
  have hlower : ∀ G ∈ R, (handDist k H : ℤ) ≤ (blockCounts G.code).steps := by
    intro G hG
    obtain ⟨L, hdec⟩ := exists_blocks_of_mem_findGroups h hcomp hR hG
    rw [steps_blockCounts hdec, hk]
    obtain ⟨T', -, hlive, hle, -⟩ := hdec
    exact handDist_le_leafSteps hH hlive hle
  -- and some result scores no more
  obtain ⟨G₀, hG₀, hscore⟩ : ∃ G ∈ R, (blockCounts G.code).steps ≤ handDist k H := by
    obtain ⟨W, hW, hdist⟩ : ∃ W, CompleteHand k W ∧ (W - H).card = handDist k H :=
      Exchange.exists_card_sub_eq_dist groups_nonempty pairs_nonempty k H
    obtain ⟨L, hlive, hle, hsteps⟩ := exists_blocks_leafSteps_le (H := H) hW
    obtain ⟨G, hG, L₀, L', hperm, hdec⟩ := exists_result_of_le h hlive hle hR
    refine ⟨G, hG, ?_⟩
    rw [steps_blockCounts hdec, hk, ← hdist]
    refine (leafSteps_anti ?_ ?_ ?_).trans hsteps
    all_goals
      rw [List.countP_append, hperm.countP_eq]
      omega
  have hbound : (handDist k H : ℤ) < 100 := by
    have := handDist_le_leafSteps (L := []) hH (by simp) (by simp)
    simp only [leafSteps, List.countP_nil] at this
    omega
  obtain ⟨g, rest, hg, ⟨g', hg', heq⟩, hmin⟩ := head_countSteps hG₀ (by omega)
  have hge := hlower g' hg'
  have hle := hmin G₀ hG₀
  simp only [stepToHu1617, hR, Option.map_some, hg]
  omega

/-- A hand with at most four copies of each kind has less than `150` tiles. -/
theorem card_le_of_count_le {H : Multiset Kind} (h4 : ∀ x, H.count x ≤ 4) : H.card ≤ 136 := by
  have hcard : H.card = ∑ x, H.count x := by
    rw [← Multiset.toFinset_sum_count_eq]
    exact Finset.sum_subset (Finset.subset_univ _) fun x _ hx => by simpa using hx
  calc H.card = ∑ x, H.count x := hcard
    _ ≤ ∑ _x : Kind, 4 := Finset.sum_le_sum fun x _ => h4 x
    _ = 136 := by simp

/-- **The step count of a hand** of `3 k + 1` or `3 k + 2` tiles is the least number of tiles
of a complete hand that it lacks, and zero exactly for the complete hands. -/
theorem isLeast_stepToHu1617 {k : ℕ} {T : Tiles} {H : Multiset Kind} (h : T.Holds H)
    (h4 : ∀ x, H.count x ≤ 4) (hH : H.card = 3 * k + 1 ∨ H.card = 3 * k + 2) :
    IsLeast {d : ℤ | ∃ W, CompleteHand k W ∧ ((W - H).card : ℤ) = d} (stepToHu1617 T) ∧
      (stepToHu1617 T = 0 ↔ H.card = 3 * k + 2 ∧ CompleteHand k H) := by
  have hlt := card_le_of_count_le h4
  rw [stepToHu1617_eq_handDist h hH (by omega)]
  obtain ⟨⟨W, hW, hdist⟩, hmin⟩ := Exchange.isLeast_dist groups_nonempty pairs_nonempty k H
  refine ⟨⟨⟨W, hW, by rw [hdist]⟩, ?_⟩, ?_⟩
  · rintro d ⟨W', hW', rfl⟩
    exact_mod_cast hmin ⟨W', hW', rfl⟩
  · rw [Nat.cast_eq_zero, Exchange.dist_eq_zero_iff groups_nonempty pairs_nonempty]
    constructor
    · rintro ⟨W', hW', hle⟩
      have hcard : W'.card = 3 * k + 2 := CompleteHand.card hW'
      have := Multiset.card_le_card hle
      obtain rfl : W' = H := Multiset.eq_of_le_of_card_le hle (by omega)
      exact ⟨hcard, hW'⟩
    · rintro ⟨-, hH'⟩
      exact ⟨H, hH', le_rfl⟩

/-- A triplet, a run and a lone wind are one tile short. -/
theorem isLeast_stepToHu1617_example :
    IsLeast {d : ℤ | ∃ W, CompleteHand 2 W ∧
      ((W - {0, 0, 0, 9, 10, 11, 30} : Multiset Kind).card : ℤ) = d} 1 := by
  have h := (isLeast_stepToHu1617 (k := 2) (T := packHand {0, 0, 0, 9, 10, 11, 30})
    (holds_packHand (by decide)) (by decide) (by decide)).1
  have hsteps : stepToHu1617 (packHand {0, 0, 0, 9, 10, 11, 30}) = 1 := by decide +kernel
  rwa [hsteps] at h

end MahjongAI
