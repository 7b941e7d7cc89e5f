import Mathlib.Data.List.Sort
import MahjongAI.Blocks

/-!
# Decompositions of a Hand

What `findGroups` returns and what `countSteps` makes of it, over the multiset behind the
packed words. A decomposition is a list of block codes whose tiles the hand contains,
followed by the codes of the tiles that are left.

## Main results

* `exists_findGroups`: the search ends, and more fuel does not change its result.
* `exists_blocks_of_mem_findGroups`: every result is such a decomposition.
* `exists_mem_findGroups`: every list of blocks in component order that fits into the hand
  is the beginning of some result. With the empty list: there is always a result.
* `steps_blockCounts`: the steps of a decomposition of a hand of `n` tiles with `g` groups,
  `p` partial runs and `q` pairs, in closed form over `k = n / 3`.
* `leafSteps_anti`: more blocks never raise the steps.
* `head_countSteps`: the first of the best decompositions attains the minimum.
-/

namespace MahjongAI

/-- The tiles of a list of block codes. -/
def tilesOf (L : List ℕ) : Multiset Kind :=
  (L.map block).sum

@[simp] theorem tilesOf_nil : tilesOf [] = 0 :=
  rfl

@[simp] theorem tilesOf_cons (c : ℕ) (L : List ℕ) : tilesOf (c :: L) = block c + tilesOf L := by
  simp [tilesOf]

theorem tilesOf_append (L L' : List ℕ) : tilesOf (L ++ L') = tilesOf L + tilesOf L' := by
  simp [tilesOf]

theorem tilesOf_perm {L L' : List ℕ} (h : L.Perm L') : tilesOf L = tilesOf L' :=
  (h.map block).sum_eq

theorem tilesOf_sublist {L L' : List ℕ} (h : L.Sublist L') : tilesOf L ≤ tilesOf L' := by
  induction h with
  | slnil => exact le_rfl
  | cons c _ ih =>
      rw [tilesOf_cons]
      exact ih.trans (Multiset.le_add_left _ _)
  | cons_cons c _ ih =>
      rw [tilesOf_cons, tilesOf_cons]
      gcongr

theorem block_le_tilesOf {L : List ℕ} {c : ℕ} (h : c ∈ L) : block c ≤ tilesOf L := by
  simpa using tilesOf_sublist (List.singleton_sublist.mpr h)

/-! ### The leaf codes -/

theorem le_of_mem_leafCodes {T : Tiles} {c : ℕ} (h : c ∈ T.leafCodes) : 180 ≤ c := by
  obtain ⟨i, -, hi⟩ := List.mem_flatMap.mp h
  have := (List.mem_replicate.mp hi).2
  omega

/-- There is a leaf code for each tile that is left. -/
theorem Tiles.Holds.length_leafCodes {T : Tiles} {H : Multiset Kind} (h : T.Holds H) :
    T.leafCodes.length = H.card := by
  rw [← h.size_eq]
  have hrange : List.range 36 = List.range 34 ++ [34, 35] := by decide
  simp [Tiles.leafCodes, Tiles.size, hrange, List.length_flatMap, h.unused.1, h.unused.2]

/-! ### The search -/

/-- What a list of searches finds together. -/
theorem mem_flatten_of_mapM {α β : Type*} {f : α → Option (List β)} {l : List α}
    {rs : List (List β)} (h : l.mapM f = some rs) {b : β} :
    b ∈ rs.flatten ↔ ∃ a ∈ l, ∃ r, f a = some r ∧ b ∈ r := by
  induction l generalizing rs with
  | nil =>
      obtain rfl : rs = [] := by simpa using h.symm
      simp
  | cons a l ih =>
      obtain ⟨r, hr, rs', hrs', rfl⟩ : ∃ r, f a = some r ∧ ∃ rs', l.mapM f = some rs' ∧
          r :: rs' = rs := by
        simpa [Option.bind_eq_some_iff] using h
      rw [List.flatten_cons, List.mem_append, ih hrs']
      simp [hr]

/-- Searches that all have a result. -/
theorem mapM_eq_some_map {α β : Type*} {f : α → Option β} {r : α → β} {l : List α}
    (h : ∀ a ∈ l, f a = some (r a)) : l.mapM f = some (l.map r) := by
  induction l with
  | nil => rfl
  | cons a l ih =>
      rw [List.mapM_cons, h a List.mem_cons_self,
        ih fun b hb => h b (List.mem_cons_of_mem a hb)]
      rfl

theorem mem_tails_iff {c : ℕ} {rest Componet : List ℕ} :
    c :: rest ∈ Componet.tails ↔ ∃ pre, Componet = pre ++ c :: rest := by
  rw [List.mem_tails]
  exact ⟨fun ⟨pre, h⟩ => ⟨pre, h.symm⟩, fun ⟨pre, h⟩ => ⟨pre, h.symm⟩⟩

/-- What one turn of the loop finds. -/
theorem follow_eq_some {search : Tiles → List ℕ → List ℕ → Option (List Groups)} {T : Tiles}
    {tmp s : List ℕ} {R : List Groups} {G : Groups} (h : follow search T tmp s = some R)
    (hG : G ∈ R) : ∃ c rest, s = c :: rest ∧ T.has c = true ∧
      search (T.take c) (c :: rest) (tmp ++ [c]) = some R := by
  cases s with
  | nil =>
      obtain rfl := Option.some.inj h
      exact absurd hG (by simp)
  | cons c rest =>
      rw [follow] at h
      split at h
      · rename_i hhas
        exact ⟨c, rest, rfl, hhas, h⟩
      · obtain rfl := Option.some.inj h
        exact absurd hG (by simp)

/-- The two branches of `findGroups`. -/
theorem mem_findGroups_succ {fuel : ℕ} {T : Tiles} {Componet tmp : List ℕ} {R : List Groups}
    (hR : findGroups (fuel + 1) T Componet tmp = some R) {G : Groups} :
    G ∈ R ↔
      ((∃ pre c rest, Componet = pre ++ c :: rest ∧ T.has c = true ∧
          ∃ R', findGroups fuel (T.take c) (c :: rest) (tmp ++ [c]) = some R' ∧ G ∈ R') ∨
        (∀ c ∈ Componet, T.has c = false) ∧
          G = { code := tmp ++ T.leafCodes, steps := 0 }) := by
  rw [findGroups] at hR
  by_cases hany : Componet.any T.has = true
  · rw [if_pos hany] at hR
    obtain ⟨rs, hrs, rfl⟩ := Option.map_eq_some_iff.mp hR
    rw [mem_flatten_of_mapM hrs]
    constructor
    · rintro ⟨s, hs, r, hr, hG⟩
      obtain ⟨c, rest, rfl, hhas, hsearch⟩ := follow_eq_some hr hG
      obtain ⟨pre, hpre⟩ := mem_tails_iff.mp hs
      exact Or.inl ⟨pre, c, rest, hpre, hhas, r, hsearch, hG⟩
    · rintro (⟨pre, c, rest, hpre, hhas, R', hR', hG⟩ | ⟨hnone, -⟩)
      · exact ⟨c :: rest, mem_tails_iff.mpr ⟨pre, hpre⟩, R', by rw [follow, if_pos hhas, hR'], hG⟩
      · obtain ⟨c, hc, hhas⟩ := List.any_eq_true.mp hany
        rw [hnone c hc] at hhas
        exact absurd hhas (by simp)
  · have hnone : ∀ c ∈ Componet, T.has c = false := by simpa using hany
    rw [if_neg hany] at hR
    obtain rfl := Option.some.inj hR
    rw [List.mem_singleton]
    constructor
    · exact fun hG => Or.inr ⟨hnone, hG⟩
    · rintro (⟨pre, c, rest, hpre, hhas, -⟩ | ⟨-, hG⟩)
      · rw [hnone c (by simp [hpre])] at hhas
        exact absurd hhas (by simp)
      · exact hG

/-- A block that fits takes two tiles at least. -/
theorem card_sub_block {T : Tiles} {H : Multiset Kind} (h : T.Holds H) {c : ℕ} (hc : c < 138)
    (hhas : T.has c = true) : (H - block c).card + 2 ≤ H.card := by
  have hblock := ((h.has_iff hc).mp hhas).2
  have hcard := Multiset.card_le_card hblock
  have htwo := two_le_card_block c
  rw [Multiset.card_sub hblock]
  omega

/-- **The search ends**, with one result for all fuel that exceeds the number of tiles. -/
theorem exists_findGroups {T : Tiles} {H : Multiset Kind} {Componet : List ℕ} (h : T.Holds H)
    (hcomp : ∀ c ∈ Componet, c < 138) (tmp : List ℕ) :
    ∃ R, ∀ fuel, H.card < fuel → findGroups fuel T Componet tmp = some R := by
  induction hn : H.card using Nat.strong_induction_on generalizing T H Componet tmp with
  | _ n ih =>
      by_cases hany : Componet.any T.has = true
      · have hturns : ∀ s ∈ Componet.tails, ∃ r, ∀ fuel, n < fuel + 1 →
            follow (findGroups fuel) T tmp s = some r := by
          intro s hs
          cases s with
          | nil => exact ⟨[], fun fuel _ => rfl⟩
          | cons c rest =>
              have hrest : ∀ d ∈ c :: rest, d < 138 := fun d hd =>
                hcomp d (((List.mem_tails _ _).mp hs).subset hd)
              have hc := hrest c List.mem_cons_self
              by_cases hhas : T.has c = true
              · have hless := card_sub_block h hc hhas
                obtain ⟨r, hr⟩ := ih _ (by omega) (h.take hc hhas) hrest (tmp ++ [c]) rfl
                exact ⟨r, fun fuel hfuel => by rw [follow, if_pos hhas, hr fuel (by omega)]⟩
              · exact ⟨[], fun fuel _ => by rw [follow, if_neg hhas]⟩
        choose! r hr using hturns
        refine ⟨(Componet.tails.map r).flatten, fun fuel hfuel => ?_⟩
        cases fuel with
        | zero => omega
        | succ fuel =>
            rw [findGroups, if_pos hany, mapM_eq_some_map fun s hs => hr s hs fuel hfuel]
            rfl
      · refine ⟨[⟨tmp ++ T.leafCodes, 0⟩], fun fuel hfuel => ?_⟩
        cases fuel with
        | zero => omega
        | succ fuel => rw [findGroups, if_neg hany]

/-- A decomposition of the hand `H`: the codes `tmp`, the blocks `L` that the hand
contains, and the leaf codes of the rest. -/
def IsDecomposition (H : Multiset Kind) (tmp L code : List ℕ) : Prop :=
  ∃ T' : Tiles, code = tmp ++ L ++ T'.leafCodes ∧ (∀ c ∈ L, LiveCode c) ∧ tilesOf L ≤ H ∧
    T'.Holds (H - tilesOf L)

/-- A decomposition of what is left after a block is one of the whole hand. -/
theorem IsDecomposition.cons {H : Multiset Kind} {tmp L code : List ℕ} {c : ℕ}
    (h : IsDecomposition (H - block c) (tmp ++ [c]) L code) (hlive : LiveCode c)
    (hle : block c ≤ H) : IsDecomposition H tmp (c :: L) code := by
  obtain ⟨T', hcode, hL, hsum, hT'⟩ := h
  refine ⟨T', by simp [hcode], ?_, ?_, ?_⟩
  · intro d hd
    rcases List.mem_cons.mp hd with rfl | hd
    · exact hlive
    · exact hL d hd
  · rw [tilesOf_cons]
    exact add_le_of_le_tsub_left_of_le hle hsum
  · rw [tilesOf_cons, ← tsub_tsub]
    exact hT'

/-- **Soundness of the search.** Every result decomposes the hand. -/
theorem exists_blocks_of_mem_findGroups {fuel : ℕ} {T : Tiles} {H : Multiset Kind}
    {Componet tmp : List ℕ} (h : T.Holds H) (hcomp : ∀ c ∈ Componet, c < 138) {R : List Groups}
    (hR : findGroups fuel T Componet tmp = some R) {G : Groups} (hG : G ∈ R) :
    ∃ L, IsDecomposition H tmp L G.code := by
  induction fuel generalizing T H Componet tmp R with
  | zero => exact absurd hR (by simp [findGroups])
  | succ fuel ih =>
      rcases (mem_findGroups_succ hR).mp hG with ⟨pre, c, rest, rfl, hhas, R', hR', hG⟩ | ⟨-, rfl⟩
      · have hc : c < 138 := hcomp c (by simp)
        obtain ⟨hlive, hle⟩ := (h.has_iff hc).mp hhas
        have hrest : ∀ d ∈ c :: rest, d < 138 := fun d hd =>
          hcomp d (List.mem_append_right pre hd)
        obtain ⟨L, hL⟩ := ih (h.take hc hhas) hrest hR' hG
        exact ⟨c :: L, hL.cons hlive hle⟩
      · exact ⟨[], T, by simp, by simp, by simp, by simpa using h⟩

/-- **Completeness of the search.** Blocks in component order that fit together into the
hand begin some result; the fuel counts the tiles that can still be removed. -/
theorem exists_mem_findGroups {fuel : ℕ} {T : Tiles} {H : Multiset Kind}
    {Componet tmp L : List ℕ} (h : T.Holds H) (hcomp : ∀ c ∈ Componet, c < 138)
    (hsorted : Componet.Pairwise (· < ·)) (hL : L.Pairwise (· ≤ ·))
    (hmem : ∀ c ∈ L, c ∈ Componet ∧ LiveCode c) (hle : tilesOf L ≤ H) (hfuel : H.card < fuel)
    {R : List Groups} (hR : findGroups fuel T Componet tmp = some R) :
    ∃ G ∈ R, ∃ L', IsDecomposition H tmp (L ++ L') G.code := by
  induction fuel generalizing T H Componet tmp L R with
  | zero => omega
  | succ fuel ih =>
      -- one step down the branch of a fitting component `c`
      have hbranch : ∀ c ∈ Componet, T.has c = true → ∀ L₀ : List ℕ, L₀.Pairwise (· ≤ ·) →
          (∀ d ∈ L₀, d ∈ Componet ∧ LiveCode d ∧ c ≤ d) → tilesOf L₀ ≤ H - block c →
          ∃ G ∈ R, ∃ L', IsDecomposition H tmp (c :: L₀ ++ L') G.code := by
        intro c hc hhas L₀ hL₀ hmem₀ hle₀
        obtain ⟨pre, rest, rfl⟩ := List.append_of_mem hc
        have hlt : c < 138 := hcomp c (by simp)
        obtain ⟨hlive, hblock⟩ := (h.has_iff hlt).mp hhas
        have hsuffix : (c :: rest).Pairwise (· < ·) := (List.pairwise_append.mp hsorted).2.1
        have hpre : ∀ d ∈ pre, d < c := fun d hd =>
          (List.pairwise_append.mp hsorted).2.2 d hd c (by simp)
        have hin : ∀ d ∈ L₀, d ∈ c :: rest ∧ LiveCode d := by
          intro d hd
          obtain ⟨hd', hlive', hcd⟩ := hmem₀ d hd
          rcases List.mem_append.mp hd' with hd' | hd'
          · have := hpre d hd'
            omega
          · exact ⟨hd', hlive'⟩
        have hrest : ∀ d ∈ c :: rest, d < 138 := fun d hd =>
          hcomp d (List.mem_append_right pre hd)
        have hcard : (H - block c).card < fuel := by
          have := card_sub_block h hlt hhas
          omega
        obtain ⟨R', hR'⟩ := exists_findGroups (h.take hlt hhas) hrest (tmp ++ [c])
        obtain ⟨G, hG, L', hdec⟩ : ∃ G ∈ R',
            ∃ L', IsDecomposition (H - block c) (tmp ++ [c]) (L₀ ++ L') G.code :=
          ih (h.take hlt hhas) hrest hsuffix hL₀ hin hle₀ hcard (hR' fuel hcard)
        exact ⟨G, (mem_findGroups_succ hR).mpr
          (Or.inl ⟨pre, c, rest, rfl, hhas, R', hR' fuel hcard, hG⟩), L', hdec.cons hlive hblock⟩
      cases L with
      | cons c L =>
          obtain ⟨hc, hlive⟩ := hmem c (by simp)
          rw [tilesOf_cons] at hle
          have hblock : block c ≤ H := (Multiset.le_add_right _ _).trans hle
          obtain ⟨hfirst, hL⟩ := List.pairwise_cons.mp hL
          refine hbranch c hc ((h.has_iff (hcomp c hc)).mpr ⟨hlive, hblock⟩) L hL ?_ ?_
          · intro d hd
            obtain ⟨hd', hlive'⟩ := hmem d (by simp [hd])
            exact ⟨hd', hlive', hfirst d hd⟩
          · exact le_tsub_of_add_le_left hle
      | nil =>
          by_cases hnone : ∀ c ∈ Componet, T.has c = false
          · refine ⟨_, (mem_findGroups_succ hR).mpr (Or.inr ⟨hnone, rfl⟩), [], T, ?_⟩
            simpa using h
          · push Not at hnone
            obtain ⟨c, hc, hhas⟩ := hnone
            obtain ⟨G, hG, L', hdec⟩ := hbranch c hc (by simpa using hhas) [] (by simp)
              (by simp) (by simp)
            exact ⟨G, hG, c :: L', hdec⟩

/-! ### The steps of a decomposition -/

/-- A triplet or run code. -/
def isGroupCode (c : ℕ) : Bool :=
  decide (9 ≤ c % 40 ∧ c % 40 < 25)

/-- A partial run code. -/
def isPreGroupCode (c : ℕ) : Bool :=
  decide (25 ≤ c % 40)

/-- A pair code. -/
def isPairCode (c : ℕ) : Bool :=
  decide (c % 40 < 9)

/-- The steps of `g` groups, `p` partial runs and `q` pairs towards `k` groups and a pair:
every group saves two of the `2 k + 1` steps, every useful two-tile block one. -/
def leafSteps (k g p q : ℕ) : ℤ :=
  2 * k + 1 - 2 * g - min (p + q : ℤ) (k - g + if q = 0 then 0 else 1)

/-- More blocks never raise the steps. -/
theorem leafSteps_anti {k g p q g' p' q' : ℕ} (hg : g ≤ g') (hp : p ≤ p') (hq : q ≤ q') :
    leafSteps k g' p' q' ≤ leafSteps k g p q := by
  simp only [leafSteps]
  split <;> split <;> omega

/-- The steps the source computes are `leafSteps` of the counts. -/
theorem BlockCounts.steps_eq {k g p q s : ℕ} (hk : (g * 3 + p * 2 + q * 2 + s) / 3 = k) :
    BlockCounts.steps ⟨g, p, q, s⟩ = leafSteps k g p q := by
  have htotal : ((g : ℤ) * 3 + p * 2 + q * 2 + s) / 3 = k := by omega
  simp only [BlockCounts.steps, leafSteps, htotal]
  split <;> split <;> split <;> omega

/-- The tiles of a list of blocks, counted by the sorts of its codes. -/
theorem card_tilesOf {L : List ℕ} (h : ∀ c ∈ L, LiveCode c) :
    (tilesOf L).card =
      L.countP isGroupCode * 3 + L.countP isPreGroupCode * 2 + L.countP isPairCode * 2 := by
  induction L with
  | nil => rfl
  | cons c L ih =>
      have ih := ih fun d hd => h d (List.mem_cons_of_mem c hd)
      have hc : c < 138 := (h c (by simp)).1
      rw [tilesOf_cons, Multiset.card_add, ih]
      simp only [List.countP_cons, isGroupCode, isPreGroupCode, isPairCode]
      by_cases hgroup : 9 ≤ c % 40 ∧ c % 40 < 25
      · have := card_block_of_three c hgroup.1 hgroup.2
        have hpre : ¬25 ≤ c % 40 := by omega
        have hpair : ¬c % 40 < 9 := by omega
        simp only [hgroup, hpre, hpair, and_self, decide_true, decide_false, if_true]
        simp only [Bool.false_eq_true, if_false]
        omega
      · have := card_block_of_two c (by omega)
        by_cases hpair : c % 40 < 9
        · have hpre : ¬25 ≤ c % 40 := by omega
          simp only [hgroup, hpre, hpair, decide_true, decide_false, if_true]
          simp only [Bool.false_eq_true, if_false]
          omega
        · have hpre : 25 ≤ c % 40 := by omega
          simp only [hgroup, hpre, hpair, decide_true, decide_false, if_true]
          simp only [Bool.false_eq_true, if_false]
          omega

/-- Groups have three tiles each. -/
theorem card_tilesOf_of_group {L : List ℕ}
    (h : ∀ c ∈ L, LiveCode c ∧ isGroupCode c = true) : (tilesOf L).card = L.length * 3 := by
  induction L with
  | nil => rfl
  | cons c L ih =>
      have ih := ih fun d hd => h d (List.mem_cons_of_mem c hd)
      obtain ⟨hlive, hc⟩ := h c List.mem_cons_self
      have hi : 9 ≤ c % 40 ∧ c % 40 < 25 := by simpa [isGroupCode] using hc
      have := card_block_of_three c hi.1 hi.2
      rw [tilesOf_cons, Multiset.card_add, ih, List.length_cons]
      omega

/-- All other blocks have two tiles each. -/
theorem card_tilesOf_of_two {L : List ℕ}
    (h : ∀ c ∈ L, LiveCode c ∧ isGroupCode c = false) : (tilesOf L).card = L.length * 2 := by
  induction L with
  | nil => rfl
  | cons c L ih =>
      have ih := ih fun d hd => h d (List.mem_cons_of_mem c hd)
      obtain ⟨hlive, hc⟩ := h c List.mem_cons_self
      have hi : ¬(9 ≤ c % 40 ∧ c % 40 < 25) := by simpa [isGroupCode] using hc
      have := card_block_of_two c (by omega)
      rw [tilesOf_cons, Multiset.card_add, ih, List.length_cons]
      omega

/-- **The steps of a decomposition** of a hand depend only on the number of its tiles and
on the sorts of its blocks. -/
theorem steps_blockCounts {H : Multiset Kind} {L code : List ℕ}
    (h : IsDecomposition H [] L code) :
    (blockCounts code).steps = leafSteps (H.card / 3) (L.countP isGroupCode)
      (L.countP isPreGroupCode) (L.countP isPairCode) := by
  obtain ⟨T', rfl, hlive, hle, hT'⟩ := h
  have hlow : ∀ c ∈ L, c < 180 := fun c hc => by
    have := (hlive c hc).1
    omega
  have hhigh : ∀ c ∈ T'.leafCodes, 180 ≤ c := fun c hc => le_of_mem_leafCodes hc
  have hcount : ∀ f : ℕ → Bool, (L ++ T'.leafCodes).countP (fun c => c < 180 ∧ f c) =
      L.countP f := by
    intro f
    rw [List.countP_append]
    have h0 : T'.leafCodes.countP (fun c => c < 180 ∧ f c) = 0 := by
      rw [List.countP_eq_zero]
      intro c hc
      have := hhigh c hc
      simp only [decide_eq_true_eq]
      omega
    rw [h0, add_zero]
    refine List.countP_congr fun c hc => ?_
    have := hlow c hc
    simp [this]
  have hsingle : (L ++ T'.leafCodes).countP (fun c => 180 ≤ c) = (H - tilesOf L).card := by
    rw [List.countP_append, ← hT'.length_leafCodes]
    have h0 : L.countP (fun c => 180 ≤ c) = 0 := by
      rw [List.countP_eq_zero]
      intro c hc
      have := hlow c hc
      simp only [decide_eq_true_eq]
      omega
    have h1 : T'.leafCodes.countP (fun c => 180 ≤ c) = T'.leafCodes.length := by
      rw [List.countP_eq_length]
      intro c hc
      simpa using hhigh c hc
    omega
  have hgroup := hcount isGroupCode
  have hpre := hcount isPreGroupCode
  have hpair := hcount isPairCode
  simp only [isGroupCode, isPreGroupCode, isPairCode, decide_eq_true_eq] at hgroup hpre hpair
  rw [blockCounts, List.nil_append, hgroup, hpre, hpair, hsingle]
  refine BlockCounts.steps_eq ?_
  have hcard := card_tilesOf hlive
  have := Multiset.card_le_card hle
  rw [Multiset.card_sub hle]
  unfold isGroupCode isPreGroupCode isPairCode at *
  omega

/-! ### The best decompositions -/

/-- The running minimum of a fold is a lower bound that some element or the start attains. -/
theorem foldl_steps_le (l : List Groups) (m : ℤ) :
    l.foldl (fun m g => if g.steps < m then g.steps else m) m ≤ m ∧
      ∀ g ∈ l, l.foldl (fun m g => if g.steps < m then g.steps else m) m ≤ g.steps := by
  induction l generalizing m with
  | nil => simp
  | cons g l ih =>
      obtain ⟨hle, hall⟩ := ih (if g.steps < m then g.steps else m)
      rw [List.foldl_cons]
      refine ⟨hle.trans (by split <;> omega), fun g' hg' => ?_⟩
      rcases List.mem_cons.mp hg' with rfl | hg'
      · exact hle.trans (by split <;> omega)
      · exact hall g' hg'

theorem foldl_steps_eq (l : List Groups) (m : ℤ) :
    l.foldl (fun m g => if g.steps < m then g.steps else m) m = m ∨
      ∃ g ∈ l, l.foldl (fun m g => if g.steps < m then g.steps else m) m = g.steps := by
  induction l generalizing m with
  | nil => exact Or.inl rfl
  | cons g l ih =>
      rw [List.foldl_cons]
      rcases ih (if g.steps < m then g.steps else m) with h | ⟨g', hg', h⟩
      · rw [h]
        split
        · exact Or.inr ⟨g, by simp, rfl⟩
        · exact Or.inl rfl
      · exact Or.inr ⟨g', by simp [hg'], h⟩

/-- **The best decompositions.** With a result of less than `100` steps, `countSteps` is
not empty, and its first element is a scored result of least steps. -/
theorem head_countSteps {G : List Groups} {g₀ : Groups} (h₀ : g₀ ∈ G)
    (hlt : (blockCounts g₀.code).steps < 100) :
    ∃ g rest, countSteps G = g :: rest ∧
      (∃ g' ∈ G, g.steps = (blockCounts g'.code).steps) ∧
      ∀ g' ∈ G, g.steps ≤ (blockCounts g'.code).steps := by
  set scored := G.map fun g => { g with steps := (blockCounts g.code).steps } with hscored
  set min := scored.foldl (fun m g => if g.steps < m then g.steps else m) 100 with hmin
  have hcount : countSteps G = scored.filter fun g => g.steps ≤ min := rfl
  have hscore : ∀ g' ∈ G, ({ g' with steps := (blockCounts g'.code).steps } : Groups) ∈ scored :=
    fun g' hg' => List.mem_map.mpr ⟨g', hg', rfl⟩
  have hall : ∀ g' ∈ G, min ≤ (blockCounts g'.code).steps := fun g' hg' =>
    (foldl_steps_le scored 100).2 _ (hscore g' hg')
  have hne : countSteps G ≠ [] := by
    obtain h | ⟨g', hg', h⟩ := foldl_steps_eq scored 100
    · have := hall g₀ h₀
      rw [hmin, h] at this
      omega
    · intro hnil
      rw [hcount, List.filter_eq_nil_iff] at hnil
      exact hnil g' hg' (by simp [hmin, h])
  obtain ⟨g, rest, hg⟩ := List.exists_cons_of_ne_nil hne
  refine ⟨g, rest, hg, ?_⟩
  have hmem : g ∈ scored.filter fun g => g.steps ≤ min := by
    rw [← hcount, hg]
    exact List.mem_cons_self
  obtain ⟨hg', hle⟩ := List.mem_filter.mp hmem
  have hle : g.steps ≤ min := by simpa using hle
  obtain ⟨g', hg'', rfl⟩ := List.mem_map.mp hg'
  exact ⟨⟨g', hg'', rfl⟩, fun g'' h => hle.trans (hall g'' h)⟩

end MahjongAI
