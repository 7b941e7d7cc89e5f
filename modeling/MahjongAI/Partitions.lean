import MahjongAI.StepToHu

/-!
# Exact Partitions of a Packed Hand

The search and its scoring, stated over the packed words and the codes themselves. `codeWord c i`
is what a code takes from word `i`: the mask of a block, or the unit of a single tile. A code list
is an exact partition of a hand when these add up to its words, field by field and as integers.

## Main results

* `findGroups_spec`: for every packed hand the search ends, finds something, finds exact
  partitions only, and finds every multiset of blocks that fits as part of one.
* `countSteps_spec`: the steps in closed form, their monotonicity, and the minimum that
  `countSteps` puts first.
-/

open Packed

namespace MahjongAI

/-! ### Packed hands -/

/-- Every field is between `0` and `7`: nine fields in the suits, seven in the honours. -/
structure Tiles.InRange (T : Tiles) : Prop where
  nonneg : ∀ i, 0 ≤ T.tiles i
  lt : ∀ i, T.tiles i < 2 ^ (9 * 3)
  honours : T.tiles 3 < 2 ^ (7 * 3)

/-- The count of a cell: of its kind, or nothing in the two unused cells. -/
def cellCount (H : Multiset Kind) (e : ℕ) : ℤ :=
  if h : e < 34 then H.count ⟨e, h⟩ else 0

theorem cellCount_add (H H' : Multiset Kind) (e : ℕ) :
    cellCount (H + H') e = cellCount H e + cellCount H' e := by
  simp only [cellCount]
  split
  · rw [Multiset.count_add]
    push_cast
    rfl
  · rfl

theorem Tiles.Holds.get_eq_cellCount {T : Tiles} {H : Multiset Kind} (h : T.Holds H) {e : ℕ}
    (he : e < 36) : T.get e = cellCount H e := by
  rw [cellCount]
  split
  · exact h.get_eq ⟨e, _⟩
  · have hcases : e = 34 ∨ e = 35 := by omega
    rcases hcases with rfl | rfl
    · exact h.unused.1
    · exact h.unused.2

/-- **Every packed hand** counts some multiset of kinds. -/
theorem Tiles.InRange.exists_holds {T : Tiles} (h : T.InRange) : ∃ H, T.Holds H := by
  have hget : ∀ e, 0 ≤ T.get e := fun e => field_nonneg _ _ _
  have hhigh : ∀ j, 7 ≤ j → field 3 (T.tiles 3) j = 0 := fun j hj =>
    field_eq_zero_of_lt (h.nonneg 3) h.honours hj
  refine ⟨∑ k : Kind, Multiset.replicate (T.get k).toNat k, fun k => ?_, hhigh 7 le_rfl,
    hhigh 8 (by norm_num)⟩
  rw [Multiset.count_sum']
  simp [Multiset.count_replicate, hget]

/-! ### What a code takes -/

/-- What a code takes from word `i`: the mask of a block code, or the unit of a leaf code. -/
def codeWord (c : ℕ) (i : Fin 4) : ℤ :=
  if c < 180 then if codeColor c = i then codeMask c else 0
  else if Fin.ofNat 4 ((c - 180) / 9) = i then unit 3 ((c - 180) % 9) else 0

/-- The word and the field of a cell. -/
theorem cell_eq (i : Fin 4) {j : ℕ} (hj : j < 9) :
    Fin.ofNat 4 ((9 * i.val + j) / 9) = i ∧ (9 * i.val + j) % 9 = j := by
  have hdiv : (9 * i.val + j) / 9 = i.val := by omega
  refine ⟨?_, by omega⟩
  rw [hdiv]
  exact Fin.ofNat_val_eq_self i

/-- A live code takes the tiles of its block. -/
theorem field_codeWord_of_live {c : ℕ} (hlive : LiveCode c) (i : Fin 4) {j : ℕ} (hj : j < 9) :
    field 3 (codeWord c i) j = cellCount (block c) (9 * i.val + j) := by
  obtain ⟨hword, hfield⟩ := cell_eq i hj
  have hc : c < 138 := hlive.1
  rw [codeWord, if_pos (by omega), cellCount]
  by_cases hk : 9 * i.val + j < 34
  · have hmask := field_codeMask c hc hlive ⟨_, hk⟩
    simp only [hword, hfield] at hmask
    rw [dif_pos hk, block, Multiset.coe_count, ← hmask, apply_ite (fun v => field 3 v j),
      field_zero]
  · have hi : i = 3 := Fin.ext (by
      have := i.isLt
      show i.val = 3
      omega)
    subst hi
    rw [dif_neg hk]
    split
    · rename_i hcolor
      have hunused := (field_codeMask_unused c hc hcolor).mp hlive
      have hcases : j = 7 ∨ j = 8 := by
        have hthree : (3 : Fin 4).val = 3 := rfl
        omega
      rcases hcases with rfl | rfl
      · exact hunused.1
      · exact hunused.2
    · exact field_zero 3 j

/-- A leaf code takes its tile. -/
theorem field_codeWord_leaf (m : ℕ) (i : Fin 4) {j : ℕ} (hj : j < 9) (hm : m < 36) :
    field 3 (codeWord (180 + m) i) j = if m = 9 * i.val + j then 1 else 0 := by
  rw [codeWord, if_neg (by omega), Nat.add_sub_cancel_left]
  by_cases hcell : m = 9 * i.val + j
  · obtain ⟨hword, hfield⟩ := cell_eq i hj
    rw [if_pos hcell, hcell, if_pos hword, hfield, field_unit (by norm_num), if_pos rfl]
  · rw [if_neg hcell]
    split
    · rename_i hword
      have hval := congrArg Fin.val hword
      rw [Fin.val_ofNat] at hval
      rw [field_unit (by norm_num), if_neg (by omega)]
    · exact field_zero 3 j

/-- A word that a code takes is in range. -/
theorem codeWord_mem (c : ℕ) (i : Fin 4) : 0 ≤ codeWord c i ∧ codeWord c i < 2 ^ (9 * 3) := by
  have hmask : ∀ d < 40, 0 ≤ groupMask d ∧ groupMask d < 2 ^ (9 * 3) := by decide
  have hzero : (0 : ℤ) ≤ 0 ∧ (0 : ℤ) < 2 ^ (9 * 3) := by norm_num
  rw [codeWord]
  split
  · split
    · exact hmask _ (Nat.mod_lt _ (by norm_num))
    · exact hzero
  · split
    · exact ⟨unit_nonneg _ _, unit_lt (by norm_num) (Nat.mod_lt _ (by norm_num))⟩
    · exact hzero

/-- **No carry**: codes that add up to a word in every field add up to it. -/
theorem sum_codeWord_of_fields {code : List ℕ} {i : Fin 4} {v : ℤ} (h0 : 0 ≤ v)
    (h1 : v < 2 ^ (9 * 3))
    (h : ∀ j < 9, (code.map fun c => field 3 (codeWord c i) j).sum = field 3 v j) :
    (code.map fun c => codeWord c i).sum = v := by
  have hpack : ∀ c, codeWord c i = pack 3 9 (field 3 (codeWord c i)) := fun c =>
    (pack_field (codeWord_mem c i).1 (codeWord_mem c i).2).symm
  calc (code.map fun c => codeWord c i).sum
      = (code.map fun c => pack 3 9 (field 3 (codeWord c i))).sum := by simp only [← hpack]
    _ = pack 3 9 fun j => (code.map fun c => field 3 (codeWord c i) j).sum :=
        (pack_sum 3 9 code fun c => field 3 (codeWord c i)).symm
    _ = pack 3 9 (field 3 v) := pack_congr h
    _ = v := pack_field h0 h1

/-- The codes are an **exact partition** of the hand: what they take adds up to it, in every
field and in every word. -/
structure Tiles.Partition (T : Tiles) (code : List ℕ) : Prop where
  codes : ∀ c ∈ code, c < 138 ∨ 180 ≤ c ∧ c < 214
  fields : ∀ i, ∀ j < 9, (code.map fun c => field 3 (codeWord c i) j).sum = field 3 (T.tiles i) j
  words : ∀ i, (code.map fun c => codeWord c i).sum = T.tiles i

/-- The blocks **fit** together into the hand. -/
structure Tiles.Fits (T : Tiles) (M : Multiset ℕ) : Prop where
  codes : ∀ c ∈ M, c < 138
  fields : ∀ i, ∀ j < 9, (M.map fun c => field 3 (codeWord c i) j).sum ≤ field 3 (T.tiles i) j

/-! ### The results of the search -/

/-- What a list of live codes takes. -/
theorem sum_field_of_live {L : List ℕ} (h : ∀ c ∈ L, LiveCode c) (i : Fin 4) {j : ℕ}
    (hj : j < 9) : (L.map fun c => field 3 (codeWord c i) j).sum =
      cellCount (tilesOf L) (9 * i.val + j) := by
  induction L with
  | nil =>
      simp [cellCount]
  | cons c L ih =>
      rw [List.map_cons, List.sum_cons, ih fun d hd => h d (List.mem_cons_of_mem c hd),
        field_codeWord_of_live (h c List.mem_cons_self) i hj, tilesOf_cons, cellCount_add]

/-- What the leaf codes of a hand take: the hand. -/
theorem sum_field_leafCodes {T : Tiles} {H : Multiset Kind} (h : T.Holds H) (i : Fin 4) {j : ℕ}
    (hj : j < 9) : (T.leafCodes.map fun c => field 3 (codeWord c i) j).sum =
      T.get (9 * i.val + j) := by
  have hcell : 9 * i.val + j < 36 := by omega
  have hone : ∀ m ∈ List.range 34, ((List.replicate (T.get m).toNat (180 + m)).map fun c =>
      field 3 (codeWord c i) j).sum = if m = 9 * i.val + j then T.get m else 0 := by
    intro m hm
    have hm34 := List.mem_range.mp hm
    have hnonneg : 0 ≤ T.get m := field_nonneg _ _ _
    rw [List.map_replicate, field_codeWord_leaf m i hj (by omega), List.sum_replicate]
    split
    · simpa using hnonneg
    · simp
  have hsum : ((List.range 34).map fun m => if m = 9 * i.val + j then T.get m else 0).sum =
      ∑ m ∈ Finset.range 34, if m = 9 * i.val + j then T.get m else 0 := rfl
  have hflat : ∀ f : ℕ → List ℤ, ((List.range 34).flatMap f).sum =
      ((List.range 34).map fun m => (f m).sum).sum := by
    intro f
    rw [List.flatMap_def, List.sum_flatten, List.map_map]
    rfl
  rw [Tiles.leafCodes, List.map_flatMap, hflat, List.map_congr_left hone, hsum,
    Finset.sum_ite_eq']
  split
  · rfl
  · rename_i hout
    rw [h.get_eq_cellCount hcell, cellCount, dif_neg (by simpa using hout)]

theorem partition_of_isDecomposition {T : Tiles} {H : Multiset Kind} {L code : List ℕ}
    (hT : T.InRange) (h : T.Holds H) (hdec : IsDecomposition H [] L code) :
    T.Partition code := by
  obtain ⟨T', rfl, hlive, hle, hT'⟩ := hdec
  have hfields : ∀ i, ∀ j < 9, (([] ++ L ++ T'.leafCodes).map fun c =>
      field 3 (codeWord c i) j).sum = field 3 (T.tiles i) j := by
    intro i j hj
    have hcell : 9 * i.val + j < 36 := by omega
    rw [List.nil_append, List.map_append, List.sum_append, sum_field_of_live hlive i hj,
      sum_field_leafCodes hT' i hj, hT'.get_eq_cellCount hcell, ← cellCount_add,
      add_tsub_cancel_of_le hle, ← h.get_eq_cellCount hcell, get_cell T i hj]
  refine ⟨?_, hfields, fun i => sum_codeWord_of_fields (hT.nonneg i) (hT.lt i) (hfields i)⟩
  intro c hc
  rcases List.mem_append.mp hc with hc | hc
  · exact Or.inl (hlive c (by simpa using hc)).1
  · obtain ⟨m, hm, hc⟩ := List.mem_flatMap.mp hc
    have := List.mem_range.mp hm
    have := (List.mem_replicate.mp hc).2
    exact Or.inr (by omega)

/-! ### Completeness -/

/-- A block of a fitting multiset fits. -/
theorem Tiles.Fits.has {T : Tiles} {M : Multiset ℕ} (h : T.Fits M) {c : ℕ} (hc : c ∈ M) :
    T.has c = true := by
  have hlt := h.codes c hc
  refine haveMask_iff.mpr fun j hj => ?_
  have hword : codeWord c (codeColor c) = codeMask c := by
    rw [codeWord, if_pos (by omega), if_pos rfl]
  have hle := h.fields (codeColor c) j hj
  have hone : field 3 (codeWord c (codeColor c)) j ≤
      (M.map fun c' => field 3 (codeWord c' (codeColor c)) j).sum := by
    refine Multiset.single_le_sum (fun v hv => ?_) _
      (Multiset.mem_map_of_mem (fun c' => field 3 (codeWord c' (codeColor c)) j) hc)
    obtain ⟨c', -, rfl⟩ := Multiset.mem_map.mp hv
    exact field_nonneg _ _ _
  rw [hword] at hone
  exact hone.trans hle

/-- The tiles of blocks that fit are tiles of the hand. -/
theorem tilesOf_le_of_fits {T : Tiles} {H : Multiset Kind} (h : T.Holds H) {L : List ℕ}
    (hL : T.Fits (L : Multiset ℕ)) (hlive : ∀ c ∈ L, LiveCode c) : tilesOf L ≤ H := by
  refine Multiset.le_iff_count.mpr fun k => ?_
  have hk : 9 * (Fin.ofNat 4 (k.val / 9)).val + k.val % 9 = k.val := by
    rw [Fin.val_ofNat]
    omega
  have hj : k.val % 9 < 9 := Nat.mod_lt _ (by norm_num)
  have hle := hL.fields (Fin.ofNat 4 (k.val / 9)) (k.val % 9) hj
  rw [Multiset.map_coe, Multiset.sum_coe, sum_field_of_live hlive _ hj, ← get_cell T _ hj, hk,
    h.get_eq_cellCount (by omega)] at hle
  simpa [cellCount] using hle

/-- **Every multiset of blocks that fits** is part of some result. -/
theorem exists_le_of_fits {T : Tiles} {H : Multiset Kind} (h : T.Holds H) {M : Multiset ℕ}
    (hM : T.Fits M) {R : List Groups}
    (hR : findGroups (T.size + 1) T (getComponent T) [] = some R) :
    ∃ G ∈ R, M ≤ (G.code : Multiset ℕ) := by
  have hcoe : (M.toList : Multiset ℕ) = M := Multiset.coe_toList M
  have hlive : ∀ c ∈ M.toList, LiveCode c := by
    intro c hc
    have hcM := Multiset.mem_toList.mp hc
    exact ((h.has_iff (hM.codes c hcM)).mp (hM.has hcM)).1
  have hle := tilesOf_le_of_fits h (hcoe.symm ▸ hM) hlive
  obtain ⟨G, hG, L₀, L', hperm, T', hcode, -⟩ := exists_result_of_le h hlive hle hR
  refine ⟨G, hG, ?_⟩
  have hprefix : L₀.Sublist G.code := by
    rw [hcode, List.nil_append, List.append_assoc]
    exact List.sublist_append_left L₀ _
  calc M = (L₀ : Multiset ℕ) := hcoe.symm.trans (Multiset.coe_eq_coe.mpr hperm.symm)
    _ ≤ (G.code : Multiset ℕ) := Multiset.coe_le.mpr hprefix.subperm

/-- **The search is sound and complete**: for every packed hand it ends, with something, which
is exact partitions of the hand only, and every multiset of blocks that fits is part of one. -/
theorem findGroups_spec {T : Tiles} (hT : T.InRange) :
    ∃ R : List Groups,
      (∀ fuel, T.size < fuel → findGroups fuel T (getComponent T) [] = some R) ∧
        R ≠ [] ∧ (∀ G ∈ R, T.Partition G.code) ∧
          ∀ M : Multiset ℕ, T.Fits M → ∃ G ∈ R, M ≤ (G.code : Multiset ℕ) := by
  obtain ⟨H, h⟩ := hT.exists_holds
  have hcomp := (getComponent_spec h).1
  obtain ⟨R, hR⟩ := h.exists_result
  have hsearch := hR (T.size + 1) (Nat.lt_succ_self _)
  refine ⟨R, hR, ?_, fun G hG => ?_, fun M hM => exists_le_of_fits h hM hsearch⟩
  · have hempty : T.Fits 0 := ⟨by simp, fun i j _ => by simpa using field_nonneg 3 (T.tiles i) j⟩
    obtain ⟨G, hG, -⟩ := exists_le_of_fits h hempty hsearch
    exact List.ne_nil_of_mem hG
  · obtain ⟨L, hL⟩ := exists_blocks_of_mem_findGroups h hcomp hsearch hG
    exact partition_of_isDecomposition hT h hL

/-- The run that starts the characters is found in a hand of these three tiles. -/
theorem findGroups_spec_run :
    ∃ R, findGroups 4 ⟨fun i => if i = 0 then 0o111 else 0⟩
        (getComponent ⟨fun i => if i = 0 then 0o111 else 0⟩) [] = some R ∧
      ∃ G ∈ R, ({18} : Multiset ℕ) ≤ (G.code : Multiset ℕ) := by
  have hrange : Tiles.InRange ⟨fun i => if i = 0 then 0o111 else 0⟩ :=
    ⟨by decide, by decide, by decide⟩
  obtain ⟨R, hR, -, -, hfits⟩ := findGroups_spec hrange
  refine ⟨R, hR 4 (by decide), hfits {18} ⟨by simp, ?_⟩⟩
  simp only [Multiset.map_singleton, Multiset.sum_singleton]
  decide

/-! ### The scores -/

/-- The number of tiles of a decomposition. -/
def BlockCounts.total (b : BlockCounts) : ℤ :=
  3 * b.group + 2 * b.pre_group + 2 * b.pair + b.single

/-- **The steps in closed form**, with `k = n / 3` for the `n` tiles of the decomposition. -/
theorem steps_blockCounts_eq (code : List ℕ) :
    (blockCounts code).steps = 2 * ((blockCounts code).total / 3) + 1 -
      2 * (blockCounts code).group - min ((blockCounts code).pre_group + (blockCounts code).pair)
        ((blockCounts code).total / 3 - (blockCounts code).group +
          if 1 ≤ (blockCounts code).pair then 1 else 0) := by
  obtain ⟨g, p, q, s, hcounts⟩ : ∃ g p q s : ℕ, blockCounts code = ⟨g, p, q, s⟩ :=
    ⟨_, _, _, _, rfl⟩
  have htotal : (3 * (g : ℤ) + 2 * p + 2 * q + s) / 3 = ((g * 3 + p * 2 + q * 2 + s) / 3 : ℕ) := by
    omega
  rw [hcounts, BlockCounts.steps_eq rfl, leafSteps]
  simp only [BlockCounts.total, htotal]
  split <;> split <;> omega

theorem blockCounts_perm {code code' : List ℕ} (h : code.Perm code') :
    blockCounts code = blockCounts code' := by
  simp only [blockCounts, h.countP_eq]

/-- Leaf codes are single tiles. -/
theorem blockCounts_leaves (ks : List Kind) (rest : List ℕ) :
    blockCounts (ks.map (fun t => 180 + t.val) ++ rest) =
      { blockCounts rest with single := (blockCounts rest).single + ks.length } := by
  induction ks with
  | nil => simp
  | cons k ks ih =>
      have hk : ¬ 180 + k.val < 180 := by omega
      have hk' : 180 ≤ 180 + k.val := by omega
      simp only [blockCounts, BlockCounts.mk.injEq] at ih ⊢
      obtain ⟨hgroup, hpre, hpair, hsingle⟩ := ih
      simp only [List.map_cons, List.cons_append, List.countP_cons, hk, hk', false_and,
        decide_false, decide_true, Bool.false_eq_true, if_false, if_true, List.length_cons]
      push_cast
      exact ⟨by rw [hgroup]; rfl, by rw [hpre]; rfl, by rw [hpair]; rfl, by omega⟩

/-- A block code is one block, of as many tiles as it has. -/
theorem blockCounts_cons {c : ℕ} (hc : c < 180) (rest : List ℕ) :
    (blockCounts rest).group ≤ (blockCounts (c :: rest)).group ∧
      (blockCounts rest).pre_group ≤ (blockCounts (c :: rest)).pre_group ∧
      (blockCounts rest).pair ≤ (blockCounts (c :: rest)).pair ∧
      (blockCounts (c :: rest)).total = (blockCounts rest).total + (blockTiles c).length := by
  have hleaf : ¬ 180 ≤ c := by omega
  rw [length_blockTiles]
  simp only [BlockCounts.total, blockCounts, List.countP_cons, hc, hleaf, true_and,
    decide_eq_true_eq, if_false]
  push_cast
  refine ⟨?_, ?_, ?_, ?_⟩
  · split <;> omega
  · split <;> omega
  · split <;> omega
  · split_ifs <;> omega

/-- **A block in place of single tiles** never raises the steps. -/
theorem steps_le_of_perm {c : ℕ} {code code' rest : List ℕ} (hc : c < 180)
    (hcode : code.Perm ((blockTiles c).map (fun t => 180 + t.val) ++ rest))
    (hcode' : code'.Perm (c :: rest)) :
    (blockCounts code').steps ≤ (blockCounts code).steps := by
  obtain ⟨hgroup, hpre, hpair, htotal⟩ := blockCounts_cons hc rest
  have hleaves := blockCounts_leaves (blockTiles c) rest
  rw [steps_blockCounts_eq, steps_blockCounts_eq, blockCounts_perm hcode,
    blockCounts_perm hcode', hleaves]
  have hsame : BlockCounts.total { blockCounts rest with
      single := (blockCounts rest).single + (blockTiles c).length } =
        (blockCounts (c :: rest)).total := by
    rw [htotal]
    simp only [BlockCounts.total]
    omega
  rw [hsame]
  simp only
  split <;> split <;> omega

/-- The steps of a decomposition of less than `148` tiles are less than the start value of the
minimum. -/
theorem steps_lt_of_total_lt {code : List ℕ} (h : (blockCounts code).total < 148) :
    (blockCounts code).steps < 100 := by
  obtain ⟨g, p, q, s, hcounts⟩ : ∃ g p q s : ℕ, blockCounts code = ⟨g, p, q, s⟩ :=
    ⟨_, _, _, _, rfl⟩
  rw [steps_blockCounts_eq]
  rw [hcounts] at h ⊢
  simp only [BlockCounts.total] at h ⊢
  split <;> omega

/-- **`countSteps` values and orders decompositions**: the steps in closed form, never raised by
a block in place of single tiles, and the first element that is returned has the least steps of
the list. -/
theorem countSteps_spec :
    (∀ code : List ℕ, (blockCounts code).steps = 2 * ((blockCounts code).total / 3) + 1 -
      2 * (blockCounts code).group - min ((blockCounts code).pre_group + (blockCounts code).pair)
        ((blockCounts code).total / 3 - (blockCounts code).group +
          if 1 ≤ (blockCounts code).pair then 1 else 0)) ∧
    (∀ (c : ℕ) (code code' rest : List ℕ), c < 180 →
      code.Perm ((blockTiles c).map (fun t => 180 + t.val) ++ rest) → code'.Perm (c :: rest) →
        (blockCounts code').steps ≤ (blockCounts code).steps) ∧
    ∀ G : List Groups, G ≠ [] → (∀ g ∈ G, (blockCounts g.code).total < 148) →
      ∃ g rest, countSteps G = { g with steps := (blockCounts g.code).steps } :: rest ∧ g ∈ G ∧
        ∀ g' ∈ G, (blockCounts g.code).steps ≤ (blockCounts g'.code).steps := by
  refine ⟨steps_blockCounts_eq, fun c code code' rest => steps_le_of_perm, ?_⟩
  intro G hne htotal
  obtain ⟨g₀, hg₀⟩ := List.exists_mem_of_ne_nil G hne
  obtain ⟨g, rest, hg, -, hmin⟩ := head_countSteps hg₀ (steps_lt_of_total_lt (htotal g₀ hg₀))
  have hmem : g ∈ countSteps G := by
    rw [hg]
    exact List.mem_cons_self
  obtain ⟨g', hg', rfl⟩ := List.mem_map.mp (List.mem_of_mem_filter hmem)
  exact ⟨g', rest, hg, hg', hmin⟩

/-- Three dragons are better kept together than apart. -/
theorem countSteps_spec_triplet :
    ∃ g rest, countSteps [⟨[211, 211, 211], 0⟩, ⟨[133], 0⟩] =
        { g with steps := (blockCounts g.code).steps } :: rest ∧
      g ∈ [(⟨[211, 211, 211], 0⟩ : Groups), ⟨[133], 0⟩] ∧
      ∀ g' ∈ [(⟨[211, 211, 211], 0⟩ : Groups), ⟨[133], 0⟩],
        (blockCounts g.code).steps ≤ (blockCounts g'.code).steps :=
  countSteps_spec.2.2 _ (by simp) (by decide)

end MahjongAI
