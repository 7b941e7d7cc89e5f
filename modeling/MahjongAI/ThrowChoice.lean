import Mathlib.Algebra.BigOperators.Fin
import MahjongAI.InPlace
import MahjongAI.KnownTiles
import MahjongAI.OneMove

/-!
# The Choice of the Throw

`Throw` keeps the tiles whose removal does not cost a step, weighs each by the tiles still
to come that would improve the rest, and throws the first of the heaviest. `BestThrow` is
that rule on multisets, without the two encodings of the hand, the special case of a single
candidate and the limit of twenty.

A hand that is not complete always has such a tile, since a nearest complete hand leaves
one of its tiles aside. A complete hand has none: every removal costs a step, the list of
candidates is empty, and its first element is read all the same.

## Main results

* `exists_keeper`: a hand that is not complete has a tile that it can do without.
* `throw_eq_best`: for such a hand `Throw` returns the tile of the rule, and it returns the
  same tile with the drawn tile as its argument or already in the hand.
* `throw_mem_iff`: `Throw` returns a tile of the hand exactly when the hand is not complete;
  `not_throw_mem`: a pair is complete.
-/

open Packed

namespace MahjongAI

/-! ### The rule -/

/-- The tiles still to come that improve the hand `H` after `u` is thrown, where `D` has
been discarded: each improving kind counts four less its copies in both. -/
def usefulTiles (H D : Multiset Kind) (u : Kind) : ℤ :=
  ∑ x : Kind, if handSteps (x ::ₘ H.erase u) = handSteps H - 1 then
    4 - (H.count x : ℤ) - (D.count x : ℤ) else 0

/-- The throw `t` of the hand `H` costs no step, keeps the most useful tiles to come among
those that cost none, and is the first of these in the order of kinds. -/
structure BestThrow (H D : Multiset Kind) (t : Kind) : Prop where
  mem : t ∈ H
  keeps : handSteps (H.erase t) = handSteps H
  best : ∀ u ∈ H, handSteps (H.erase u) = handSteps H → usefulTiles H D u ≤ usefulTiles H D t
  first : ∀ u ∈ H, handSteps (H.erase u) = handSteps H →
    usefulTiles H D u = usefulTiles H D t → t ≤ u

/-- There is one best throw at most. -/
theorem BestThrow.unique {H D : Multiset Kind} {t t' : Kind} (h : BestThrow H D t)
    (h' : BestThrow H D t') : t = t' := by
  have huseful : usefulTiles H D t = usefulTiles H D t' :=
    le_antisymm (h'.best t h.mem h.keeps) (h.best t' h'.mem h'.keeps)
  exact le_antisymm (h.first t' h'.mem h'.keeps huseful.symm) (h'.first t h.mem h.keeps huseful)

/-! ### A tile to do without -/

section Keepers

variable {k : ℕ} {H : Multiset Kind} (h4 : ∀ x, H.count x ≤ 4) (hH : H.card = 3 * k + 2)

include h4 hH

/-- The step count of a full hand is its exchange distance. -/
theorem handSteps_full : handSteps H = handDist k H := by
  have hlt := card_le_of_count_le h4
  exact handSteps_eq (fun x => by have := h4 x; omega) (Or.inr hH) (by omega)

/-- The step count is zero for the complete hands and positive for the others. -/
theorem completeHand_iff : CompleteHand k H ↔ handSteps H = 0 := by
  rw [handSteps_full h4 hH]
  have hzero := Exchange.dist_eq_zero_iff (k := k) (T := H) groups_nonempty pairs_nonempty
  constructor
  · intro hcomplete
    exact_mod_cast hzero.mpr ⟨H, hcomplete, le_rfl⟩
  · intro h
    obtain ⟨W, hW, hle⟩ := hzero.mp (by exact_mod_cast h)
    have hcard := CompleteHand.card hW
    rwa [← Multiset.eq_of_le_of_card_le hle (by omega)]

theorem mem_keepers {x : Kind} : x ∈ keepers H ↔ x ∈ H ∧ handSteps (H.erase x) = handSteps H := by
  simp only [keepers, List.mem_filter, List.mem_finRange, true_and, decide_eq_true_iff]
  refine and_congr_right fun hx => ?_
  rcases handSteps_erase h4 hH hx with h | h <;> omega

/-- **A hand that is not complete can do without one of its tiles.** -/
theorem exists_keeper (hpos : 1 ≤ handSteps H) : keepers H ≠ [] := by
  have hlt := card_le_of_count_le h4
  have hdist := handSteps_full h4 hH
  have hcard : ∀ W, CompleteHand k W → W.card ≤ H.card := fun W hW => by
    rw [CompleteHand.card hW, hH]
  have hpos' : 0 < handDist k H := by omega
  obtain ⟨x, hx, hsame⟩ : ∃ x ∈ H, handDist k (H.erase x) = handDist k H :=
    Exchange.exists_dist_erase_eq groups_nonempty pairs_nonempty hcard hpos'
  have hcard' : (H.erase x).card = 3 * k + 1 := by
    rw [Multiset.card_erase_of_mem hx, hH]
    rfl
  have hsteps : handSteps (H.erase x) = handDist k (H.erase x) :=
    handSteps_eq (count_le_of_le (Multiset.erase_le x H) fun y => by have := h4 y; omega)
      (Or.inl hcard') (by omega)
  refine List.ne_nil_of_mem ((mem_keepers h4 hH).mpr ⟨hx, ?_⟩)
  rw [hsteps, hdist, hsame]

/-- A complete hand cannot do without any of its tiles. -/
theorem keepers_of_complete (hcomplete : CompleteHand k H) : keepers H = [] := by
  refine List.eq_nil_iff_forall_not_mem.mpr fun x hx => ?_
  obtain ⟨hx, hsame⟩ := (mem_keepers h4 hH).mp hx
  have hlt := card_le_of_count_le h4
  have hcard' : (H.erase x).card = 3 * k + 1 := by
    rw [Multiset.card_erase_of_mem hx, hH]
    rfl
  rw [(completeHand_iff h4 hH).mp hcomplete,
    handSteps_eq (count_le_of_le (Multiset.erase_le x H) fun y => by have := h4 y; omega)
      (Or.inl hcard') (by omega)] at hsame
  obtain ⟨W, hW, hle⟩ := (Exchange.dist_eq_zero_iff groups_nonempty pairs_nonempty).mp
    (by exact_mod_cast hsame : handDist k (H.erase x) = 0)
  have hWcard := CompleteHand.card hW
  have := Multiset.card_le_card hle
  omega

/-- There are no more candidates than tiles. -/
theorem length_keepers_le : (keepers H).length ≤ H.card := by
  have hnodup : (keepers H).Nodup := (List.nodup_finRange 34).filter _
  have hle : (keepers H : Multiset Kind) ≤ H :=
    (Multiset.le_iff_subset (Multiset.coe_nodup.mpr hnodup)).mpr fun x hx =>
      ((mem_keepers h4 hH).mp hx).1
  exact Multiset.card_le_card hle

end Keepers

/-! ### The first of the best -/

/-- The running maximum of `T2` ends at the first element of greatest value. -/
theorem exists_first_max {α : Type*} (f : α → ℤ) {l : List α} (hne : l ≠ [])
    (hpos : ∀ x ∈ l, 0 ≤ f x) :
    ∃ before c after, l = before ++ c :: after ∧ (∀ x ∈ before, f x < f c) ∧
      (∀ x ∈ after, f x ≤ f c) ∧ l.foldl (fun m x => if m < f x then f x else m) 0 = f c := by
  induction l using List.reverseRecOn with
  | nil => exact absurd rfl hne
  | append_singleton l y ih =>
      have hy : 0 ≤ f y := hpos y (by simp)
      by_cases hl : l = []
      · subst hl
        refine ⟨[], y, [], rfl, by simp, by simp, ?_⟩
        simp only [List.nil_append, List.foldl_cons, List.foldl_nil]
        split <;> omega
      · obtain ⟨before, c, after, rfl, hbefore, hafter, hmax⟩ :=
          ih hl fun x hx => hpos x (List.mem_append_left _ hx)
        rw [List.foldl_append, hmax]
        simp only [List.foldl_cons, List.foldl_nil]
        by_cases hlt : f c < f y
        · refine ⟨before ++ c :: after, y, [], by simp, fun x hx => ?_, by simp, if_pos hlt⟩
          rcases List.mem_append.mp hx with hx | hx
          · exact (hbefore x hx).trans hlt
          · rcases List.mem_cons.mp hx with rfl | hx
            · exact hlt
            · exact (hafter x hx).trans_lt hlt
        · refine ⟨before, c, after ++ [y], by simp, hbefore, fun x hx => ?_, if_neg hlt⟩
          rcases List.mem_append.mp hx with hx | hx
          · exact hafter x hx
          · obtain rfl := List.mem_singleton.mp hx
            omega

/-! ### The throw on multisets -/

section Throw

variable {k : ℕ} {p : Irb00} {card : MJCard} {H D : Multiset Kind}

/-- The candidate for throwing `x` with its score is weighed by its useful tiles. -/
theorem numOfImprove_eq_usefulTiles (hhand : (p.throwHand card).Holds H)
    (hdiscards : p.discards.Counts D) (h4 : ∀ x, (H + D).count x ≤ 4) (hH : H.card = 3 * k + 2)
    {x : Kind} (hx : x ∈ keepers H) :
    numOfImprove ((p.throwHand card).subCell (Fin.ofNat 4 (x.val / 9)) (x.val % 9))
      (p.remainTiles card) (handSteps H) = usefulTiles H D x := by
  have hroom : ∀ y, H.count y ≤ 4 := count_le_of_le (Multiset.le_add_right H D) h4
  obtain ⟨hx, hkeeps⟩ := (mem_keepers hroom hH).mp hx
  have hroom' := count_le_of_le (Multiset.erase_le x H) hroom
  have hcard : (H.erase x).card = 3 * k + 1 := by
    rw [Multiset.card_erase_of_mem hx, hH]
    rfl
  have hlt := card_le_of_count_le hroom
  have hthrown : ((p.throwHand card).subCard (cardOf x)).Holds (H.erase x) := hhand.subCard hx
  have hsteps := stepToHu1617_eq_handSteps hthrown (fun y => by have := hroom' y; omega)
    (Or.inl hcard) (by omega)
  have himprove := numOfImprove_eq hthrown hroom' hcard (p.remainTiles card)
  rw [hsteps, hkeeps] at himprove
  rw [← Tiles.subCard_cardOf, himprove, usefulTiles, Fin.sum_univ_def]
  refine congrArg List.sum (List.map_congr_left fun y _ => ?_)
  have hmove := handSteps_cons hroom' hcard y
  rw [hkeeps] at hmove
  have hremain := (TableGame.holds_remainTiles hhand hdiscards h4).get_eq y
  have hy := h4 y
  rw [Multiset.count_add] at hy
  rw [Multiset.count_sub, Multiset.count_sub, TableGame.count_fullSet] at hremain
  by_cases himp : handSteps (y ::ₘ H.erase x) = handSteps H - 1
  · rw [if_pos (by omega), if_pos himp, hremain]
    omega
  · rw [if_neg (by omega), if_neg himp]

/-- Useful tiles are counted from none on. -/
theorem usefulTiles_nonneg (h4 : ∀ x, (H + D).count x ≤ 4) (x : Kind) :
    0 ≤ usefulTiles H D x := by
  refine Finset.sum_nonneg fun y _ => ?_
  have hy := h4 y
  rw [Multiset.count_add] at hy
  split
  · omega
  · exact le_rfl

/-- The first keeper with the most useful tiles is the best throw. -/
theorem bestThrow_of_first_max (hroom : ∀ y, H.count y ≤ 4) (hH : H.card = 3 * k + 2) {t : Kind}
    {before after : List Kind} (hsplit : keepers H = before ++ t :: after)
    (hbefore : ∀ x ∈ before, usefulTiles H D x < usefulTiles H D t)
    (hafter : ∀ x ∈ after, usefulTiles H D x ≤ usefulTiles H D t) : BestThrow H D t := by
  have hmem : ∀ u, u ∈ H ∧ handSteps (H.erase u) = handSteps H ↔
      u ∈ before ∨ u = t ∨ u ∈ after := by
    intro u
    rw [← mem_keepers hroom hH, hsplit]
    simp
  have hsorted : (before ++ t :: after).Pairwise (· < ·) := by
    rw [← hsplit]
    exact (List.pairwise_lt_finRange 34).filter _
  obtain ⟨hmem_t, hkeeps⟩ := (hmem t).mpr (Or.inr (Or.inl rfl))
  refine ⟨hmem_t, hkeeps, fun u hu hsame => ?_, fun u hu hsame huseful => ?_⟩
  · rcases (hmem u).mp ⟨hu, hsame⟩ with h | rfl | h
    · exact (hbefore u h).le
    · exact le_rfl
    · exact hafter u h
  · rcases (hmem u).mp ⟨hu, hsame⟩ with h | rfl | h
    · exact absurd huseful (hbefore u h).ne
    · exact le_rfl
    · have hcons := (List.pairwise_append.mp hsorted).2.1
      exact (List.rel_of_pairwise_cons hcons h).le

/-- The candidate for throwing `x`, scored. -/
def scoredCandidate (H D : Multiset Kind) (x : Kind) : CandidateThrow :=
  { candidateOf (handSteps H) x with numOfImprove := usefulTiles H D x }

/-- **`T2`** scores the keepers by their useful tiles and keeps those with the most. -/
theorem t2_keepers (hhand : (p.throwHand card).Holds H) (hdiscards : p.discards.Counts D)
    (h4 : ∀ x, (H + D).count x ≤ 4) (hH : H.card = 3 * k + 2) {m : ℤ}
    (hmax : (keepers H).foldl (fun m x => if m < usefulTiles H D x then usefulTiles H D x else m)
      0 = m) :
    t2 (p.throwHand card) (p.remainTiles card) (handSteps H)
        ((keepers H).map (candidateOf (handSteps H))) =
      ((keepers H).filter fun x => usefulTiles H D x = m).map (scoredCandidate H D) := by
  have hscored : ((keepers H).map (candidateOf (handSteps H))).map
      (InPlace.scored (p.throwHand card) (p.remainTiles card) (handSteps H)) =
        (keepers H).map (scoredCandidate H D) := by
    rw [List.map_map]
    refine List.map_congr_left fun x hx => ?_
    simp only [Function.comp_apply, InPlace.scored, candidateOf, scoredCandidate]
    rw [numOfImprove_eq_usefulTiles hhand hdiscards h4 hH hx]
  have ht2 : t2 (p.throwHand card) (p.remainTiles card) (handSteps H)
      ((keepers H).map (candidateOf (handSteps H))) =
        ((keepers H).map (scoredCandidate H D)).filter fun c => c.numOfImprove =
          ((keepers H).map (scoredCandidate H D)).foldl
            (fun m c => if m < c.numOfImprove then c.numOfImprove else m) 0 := by
    rw [← hscored]
    rfl
  have hfold : ((keepers H).map (scoredCandidate H D)).foldl
      (fun m c => if m < c.numOfImprove then c.numOfImprove else m) 0 = m := by
    rw [List.foldl_map]
    exact hmax
  rw [ht2, hfold, List.filter_map]
  refine congrArg (List.map (scoredCandidate H D)) (List.filter_congr fun x _ => ?_)
  rw [Function.comp_apply, scoredCandidate]

/-- **The candidates** that `T2` keeps begin with the best throw, and are fewer than
twenty. -/
theorem t2_eq_cons (hhand : (p.throwHand card).Holds H) (hdiscards : p.discards.Counts D)
    (h4 : ∀ x, (H + D).count x ≤ 4) (hH : H.card = 3 * k + 2) (h17 : H.card ≤ 17)
    (hne : keepers H ≠ []) :
    ∃ t c rest, BestThrow H D t ∧ tileToCard c.color c.value = cardOf t ∧
      (c :: rest).length < 20 ∧
      t2 (p.throwHand card) (p.remainTiles card) (handSteps H)
        ((keepers H).map (candidateOf (handSteps H))) = c :: rest := by
  have hroom : ∀ y, H.count y ≤ 4 := count_le_of_le (Multiset.le_add_right H D) h4
  obtain ⟨before, t, after, hsplit, hbefore, hafter, hmax⟩ :=
    exists_first_max (usefulTiles H D) hne fun x _ => usefulTiles_nonneg h4 x
  have hkept : (keepers H).filter (fun x => usefulTiles H D x = usefulTiles H D t) =
      t :: after.filter fun x => usefulTiles H D x = usefulTiles H D t := by
    have hnone : before.filter (fun x => usefulTiles H D x = usefulTiles H D t) = [] := by
      refine List.filter_eq_nil_iff.mpr fun x hx => ?_
      have := hbefore x hx
      simp only [decide_eq_true_eq]
      omega
    rw [hsplit, List.filter_append, hnone, List.nil_append, List.filter_cons_of_pos (by simp)]
  refine ⟨t, scoredCandidate H D t, _, bestThrow_of_first_max hroom hH hsplit hbefore hafter, rfl,
    ?_, by rw [t2_keepers hhand hdiscards h4 hH hmax, hkept, List.map_cons]⟩
  have hle := length_keepers_le hroom hH
  have hfilter := List.length_filter_le
    (fun x => decide (usefulTiles H D x = usefulTiles H D t)) after
  rw [hsplit, List.length_append, List.length_cons] at hle
  rw [List.length_cons, List.length_map]
  omega

/-- **The throw** of an analysed hand that can do without a tile. -/
theorem throw_spec (hhand : (p.throwHand card).Holds H) (hdiscards : p.discards.Counts D)
    (h4 : ∀ x, (H + D).count x ≤ 4) (hH : H.card = 3 * k + 2) (h17 : H.card ≤ 17)
    (hne : keepers H ≠ []) : ∃ t, BestThrow H D t ∧ p.throw card = some (cardOf t) := by
  have hroom : ∀ y, H.count y ≤ 4 := count_le_of_le (Multiset.le_add_right H D) h4
  have hlt := card_le_of_count_le hroom
  have hsteps := stepToHu1617_eq_handSteps hhand (fun y => by have := hroom y; omega)
    (Or.inr hH) (by omega)
  have ht1 := t1_eq_candidates hhand hroom hH
  rw [hsteps] at ht1
  delta Irb00.throw
  simp only [hsteps, ht1]
  cases hkeepers : keepers H with
  | nil => exact absurd hkeepers hne
  | cons x l =>
      cases l with
      | nil =>
          have hmem : ∀ u, u ∈ H ∧ handSteps (H.erase u) = handSteps H ↔ u = x := by
            intro u
            rw [← mem_keepers hroom hH, hkeepers, List.mem_singleton]
          obtain ⟨hx, hkeeps⟩ := (hmem x).mpr rfl
          refine ⟨x, ⟨hx, hkeeps, fun u hu hsame => ?_, fun u hu hsame _ => ?_⟩, rfl⟩
          · rw [(hmem u).mp ⟨hu, hsame⟩]
          · rw [(hmem u).mp ⟨hu, hsame⟩]
      | cons y l =>
          obtain ⟨t, c, rest, hbest, hcard, hlength, ht2⟩ :=
            t2_eq_cons hhand hdiscards h4 hH h17 hne
          rw [hkeepers, List.map_cons, List.map_cons] at ht2
          refine ⟨t, hbest, ?_⟩
          simp only [List.map_cons, ht2, hlength, if_true, hcard]

/-- A hand that cannot do without a tile has no candidates, and `Throw` reads the first of
them. -/
theorem throw_eq_none (hhand : (p.throwHand card).Holds H) (h4 : ∀ x, H.count x ≤ 4)
    (hH : H.card = 3 * k + 2) (hnil : keepers H = []) : p.throw card = none := by
  have ht1 := t1_eq_candidates hhand h4 hH
  rw [hnil, List.map_nil] at ht1
  delta Irb00.throw
  simp only [ht1]
  rfl

end Throw

/-! ### The throw of the player -/

/-- The hand with the drawn tile, where there is one. -/
def combined (drawn : Option Kind) (H : Multiset Kind) : Multiset Kind :=
  drawn.elim H fun x => x ::ₘ H

/-- The argument of `Throw`: the drawn tile, or the default for none. -/
def drawnCard (drawn : Option Kind) : MJCard :=
  drawn.elim noCard cardOf

/-- The colour of a kind is not that of the default argument. -/
theorem cardOf_color_ne (x : Kind) : (cardOf x).color ≠ -100 := by
  have h := (cardOf_valid x).1
  omega

section Player

variable {k : ℕ} {p : Irb00} {drawn : Option Kind} {H D : Multiset Kind}

/-- `Throw` analyses the combined hand. -/
theorem holds_combined (hhand : p.Hand.Counts H) (h4 : ∀ x, (combined drawn H).count x ≤ 4) :
    (p.throwHand (drawnCard drawn)).Holds (combined drawn H) := by
  cases drawn with
  | none => exact hhand.holds_handToTiles
  | some x =>
      have hroom := h4 x
      simp only [combined, Option.elim_some, Multiset.count_cons_self] at hroom
      have hwith : p.throwHand (drawnCard (some x)) = handToTilesWith p.Hand (cardOf x) :=
        if_neg (cardOf_color_ne x)
      rw [hwith]
      exact hhand.holds_handToTiles.addCard (k := x) (by omega)

/-- The drawn tile put into the hand leaves the combined hand. -/
theorem counts_combined {x : Kind} (hhand : p.Hand.Counts H)
    (h4 : ∀ y, (combined (some x) H).count y ≤ 4) :
    (p.Hand.addCard (cardOf x)).Counts (combined (some x) H) := by
  have hroom := h4 x
  simp only [combined, Option.elim_some, Multiset.count_cons_self] at hroom
  exact hhand.addCard (by omega)

/-- **Throw.** For a combined hand that is not complete `Throw` returns the best throw, and
it returns the same tile when the drawn tile is in the hand already. -/
theorem throw_eq_best (hhand : p.Hand.Counts H) (hdiscards : p.discards.Counts D)
    (h4 : ∀ x, (combined drawn H + D).count x ≤ 4) (hH : (combined drawn H).card = 3 * k + 2)
    (h17 : (combined drawn H).card ≤ 17) (hpos : 1 ≤ handSteps (combined drawn H)) :
    ∃ t, BestThrow (combined drawn H) D t ∧
      InPlace.throw p (drawnCard drawn) = some (cardOf t) ∧
      ∀ x, drawn = some x →
        InPlace.throw { p with Hand := p.Hand.addCard (cardOf x) } noCard = some (cardOf t) := by
  have hroom := count_le_of_le (Multiset.le_add_right _ D) h4
  have hne := exists_keeper hroom hH hpos
  obtain ⟨t, hbest, hthrow⟩ := throw_spec (holds_combined hhand hroom) hdiscards h4 hH h17 hne
  refine ⟨t, hbest, by rw [InPlace.throw_eq_inPlace, hthrow], ?_⟩
  rintro x rfl
  have hadded : ({ p with Hand := p.Hand.addCard (cardOf x) } : Irb00).Hand.Counts
      (combined (some x) H) := counts_combined hhand hroom
  obtain ⟨t', hbest', hthrow'⟩ : ∃ t', BestThrow (combined (some x) H) D t' ∧
      ({ p with Hand := p.Hand.addCard (cardOf x) } : Irb00).throw noCard = some (cardOf t') :=
    throw_spec hadded.holds_handToTiles hdiscards h4 hH h17 hne
  rw [InPlace.throw_eq_inPlace, hthrow', hbest.unique hbest']

/-- **Candidates.** `Throw` returns a tile of the combined hand exactly when that hand is not
complete. -/
theorem throw_mem_iff (hhand : p.Hand.Counts H) (hdiscards : p.discards.Counts D)
    (h4 : ∀ x, (combined drawn H + D).count x ≤ 4) (hH : (combined drawn H).card = 3 * k + 2)
    (h17 : (combined drawn H).card ≤ 17) :
    (∃ t ∈ combined drawn H, InPlace.throw p (drawnCard drawn) = some (cardOf t)) ↔
      ¬ CompleteHand k (combined drawn H) := by
  have hroom := count_le_of_le (Multiset.le_add_right _ D) h4
  have hhand' := holds_combined hhand hroom
  rw [InPlace.throw_eq_inPlace]
  constructor
  · rintro ⟨t, -, hthrow⟩ hcomplete
    rw [throw_eq_none hhand' hroom hH (keepers_of_complete hroom hH hcomplete)] at hthrow
    exact absurd hthrow (by simp)
  · intro hcomplete
    have hnonneg : 0 ≤ handSteps (combined drawn H) := by
      rw [handSteps_full hroom hH]
      exact Int.natCast_nonneg _
    have hzero := mt (completeHand_iff hroom hH).mpr hcomplete
    obtain ⟨t, hbest, hthrow⟩ := throw_spec hhand' hdiscards h4 hH h17
      (exists_keeper hroom hH (by omega))
    exact ⟨t, hbest.mem, hthrow⟩

end Player

/-- A player with the card set `s` in hand and nothing discarded. -/
def playerWith (s : MJCards) : Irb00 where
  Hand := s
  discards := MJCards.make false
  eat := 0
  pon := 0
  gon := 0
  anGon := 0
  id := 0
  pickToEat := 0

/-- The empty card set counts no tile. -/
theorem counts_make_false : (MJCards.make false).Counts 0 :=
  ⟨MJCards.inRange_make false, by decide⟩

/-- The card set of one tile counts it. -/
theorem counts_single (x : Kind) : ((MJCards.make false).addCard (cardOf x)).Counts {x} :=
  counts_make_false.addCard (by simp)

/-- Two different tiles: the first of them is thrown. -/
theorem throw_eq_best_pair :
    ∃ t, BestThrow {9, 0} 0 t ∧
      InPlace.throw (playerWith ((MJCards.make false).addCard (cardOf 0))) (cardOf 9) =
        some (cardOf t) ∧
      InPlace.throw (playerWith (((MJCards.make false).addCard (cardOf 0)).addCard (cardOf 9)))
        noCard = some (cardOf t) := by
  obtain ⟨t, hbest, hthrow, hadded⟩ := @throw_eq_best 0 (playerWith _) (some 9) {0} 0
    (counts_single 0) counts_make_false (by decide) rfl (by decide) (by decide +kernel)
  exact ⟨t, hbest, hthrow, hadded 9 rfl⟩

/-- The same two tiles are not complete, and one of them is thrown. -/
theorem throw_mem_iff_pair :
    (∃ t ∈ ({9, 0} : Multiset Kind),
      InPlace.throw (playerWith ((MJCards.make false).addCard (cardOf 0))) (cardOf 9) =
        some (cardOf t)) ↔ ¬ CompleteHand 0 {9, 0} :=
  @throw_mem_iff 0 (playerWith _) (some 9) {0} 0 (counts_single 0) counts_make_false (by decide)
    rfl (by decide)

/-- Without the condition this fails: a pair is complete, and `Throw` reads the first
of no candidates. -/
theorem not_throw_mem :
    ¬ ∀ (k : ℕ) (p : Irb00) (drawn : Option Kind) (H D : Multiset Kind), p.Hand.Counts H →
      p.discards.Counts D → (∀ x, (combined drawn H + D).count x ≤ 4) →
      (combined drawn H).card = 3 * k + 2 → (combined drawn H).card ≤ 17 →
      ∃ t ∈ combined drawn H, InPlace.throw p (drawnCard drawn) = some (cardOf t) := by
  intro h
  obtain ⟨t, -, hthrow⟩ := h 0 (playerWith ((MJCards.make false).addCard (cardOf 0))) (some 0)
    {0} 0 (counts_single 0) counts_make_false (by decide) rfl (by decide)
  have hnone : InPlace.throw (playerWith ((MJCards.make false).addCard (cardOf 0)))
      (drawnCard (some 0)) = none := by decide +kernel
  rw [hnone] at hthrow
  exact absurd hthrow (by simp)

end MahjongAI
