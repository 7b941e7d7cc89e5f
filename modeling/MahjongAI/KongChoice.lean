import MahjongAI.ThrowChoice

/-!
# The Choice of the Kong

On a draw `WannaHuGon` may declare a kong: a concealed one of four tiles, or the fourth
tile of a melded triplet. `AllYouCanGon` collects the candidates from the hand without the
drawn tile, `GonOrNot` classifies them by their count with it and tries each, and
`WannaHuGon` classifies the winner once more; its last branch falls off the function.

While no kind has more than four copies over the hand, the drawn tile and the melded
triplets, the three classifications agree (`mem_allYouCanGon`), and the last branch is out
of reach.

## Main results

* `throw_isSome`: a hand that is not complete always has a throw.
* `wannaHuGon_spec`: the answer is a kong that keeps the step count if there is one, and
  the throw otherwise; the player is left as it was.
-/

open Packed

namespace MahjongAI

/-! ### Some throw -/

/-- A score is a sum of counters. -/
theorem numOfImprove_nonneg (Hand remainTiles : Tiles) (stepToHu : ℤ) :
    0 ≤ numOfImprove Hand remainTiles stepToHu := by
  refine List.sum_nonneg fun n hn => ?_
  obtain ⟨⟨i, j⟩, -, rfl⟩ := List.mem_map.mp hn
  dsimp only
  split
  · exact field_nonneg _ _ _
  · exact le_rfl

/-- `T2` keeps one of its candidates, whatever remains. -/
theorem t2_ne_nil (Hand remainTiles : Tiles) (stepToHu : ℤ) {Candidates : List CandidateThrow}
    (hne : Candidates ≠ []) : t2 Hand remainTiles stepToHu Candidates ≠ [] := by
  let score (c : CandidateThrow) : ℤ :=
    (InPlace.scored Hand remainTiles stepToHu c).numOfImprove
  obtain ⟨before, c, after, hsplit, -, -, hmax⟩ :=
    exists_first_max score hne fun c _ => numOfImprove_nonneg _ _ _
  have hmem : c ∈ Candidates := by
    rw [hsplit]
    simp
  have ht2 : t2 Hand remainTiles stepToHu Candidates =
      (Candidates.map (InPlace.scored Hand remainTiles stepToHu)).filter fun c =>
        c.numOfImprove = (Candidates.map (InPlace.scored Hand remainTiles stepToHu)).foldl
          (fun m c => if m < c.numOfImprove then c.numOfImprove else m) 0 := rfl
  rw [ht2, List.foldl_map]
  refine List.ne_nil_of_mem (List.mem_filter.mpr ⟨List.mem_map_of_mem hmem, ?_⟩)
  exact decide_eq_true hmax.symm

/-- **Some throw.** A hand that is not complete has one, whatever has been discarded. -/
theorem throw_isSome {k : ℕ} {p : Irb00} {card : MJCard} {H : Multiset Kind}
    (hhand : (p.throwHand card).Holds H) (h4 : ∀ x, H.count x ≤ 4) (hH : H.card = 3 * k + 2)
    (hpos : 1 ≤ handSteps H) : ∃ c, p.throw card = some c := by
  have ht1 := t1_eq_candidates hhand h4 hH
  delta Irb00.throw
  simp only [ht1]
  cases hkeepers : keepers H with
  | nil => exact absurd hkeepers (exists_keeper h4 hH hpos)
  | cons x l =>
      cases l with
      | nil => exact ⟨_, rfl⟩
      | cons y l =>
          simp only [List.map_cons]
          generalize hkept : t2 _ _ _ (candidateOf _ x :: candidateOf _ y :: _) = kept
          cases kept with
          | nil => exact absurd hkept (t2_ne_nil _ _ _ (List.cons_ne_nil _ _))
          | cons c rest =>
              simp only
              split
              · exact ⟨_, rfl⟩
              · exact ⟨_, rfl⟩

/-! ### The kongs -/

/-- The mask of melded triplets has the bit of `x`. -/
def Irb00.HasPon (p : Irb00) (x : Kind) : Prop :=
  p.pon &&& cardTo34 (cardOf x) ≠ 0

instance (p : Irb00) (x : Kind) : Decidable (p.HasPon x) :=
  inferInstanceAs (Decidable (_ ≠ _))

/-- The hand `G` has four copies of `t`, and the kong keeps the step count. -/
def AnGonKeeps (G : Multiset Kind) (t : Kind) : Prop :=
  G.count t = 4 ∧ handSteps (G - Multiset.replicate 4 t) = handSteps G

/-- The hand `G` has the fourth tile of the melded triplet of `t`, and the kong keeps the
step count. -/
def PonGonKeeps (p : Irb00) (G : Multiset Kind) (t : Kind) : Prop :=
  p.HasPon t ∧ G.count t = 1 ∧ handSteps (G.erase t) = handSteps G

/-- The list of `AllYouCanGon` is the table in another order. -/
theorem cardOf_mem_gonCards : ∀ y : Kind, cardOf y ∈ Irb00.gonCards := by
  decide +kernel

section Kong

variable {k : ℕ} {p : Irb00} {H : Multiset Kind} {x : Kind}
  (hcopies : ∀ y, (x ::ₘ H).count y + (if p.HasPon y then 3 else 0) ≤ 4)

include hcopies

/-- No kind has more than four copies in the hand with the drawn tile. -/
theorem count_le_of_copies (y : Kind) : (x ::ₘ H).count y ≤ 4 := by
  have := hcopies y
  omega

/-- On the list a kong keeps the step count by equality exactly when it does not raise it. -/
theorem gonKeeps_iff (hH : (x ::ₘ H).card = 3 * k + 2) {y : Kind}
    (hy : (x ::ₘ H).count y = 4 ∨ (x ::ₘ H).count y = 1 ∧ p.HasPon y) :
    GonKeeps (x ::ₘ H) y ↔ AnGonKeeps (x ::ₘ H) y ∨ PonGonKeeps p (x ::ₘ H) y := by
  have h4 := count_le_of_copies hcopies
  rcases hy with hfour | ⟨hone, hpon⟩
  · have hmono := handSteps_sub_replicate h4 hH hfour
    rw [gonKeeps_iff_of_four hfour]
    constructor
    · exact fun hle => Or.inl ⟨hfour, by omega⟩
    · rintro (⟨-, hsame⟩ | ⟨-, hone, -⟩) <;> omega
  · have hmem : y ∈ x ::ₘ H := Multiset.count_pos.mp (by omega)
    have hmono := handSteps_erase h4 hH hmem
    rw [gonKeeps_iff_of_one hone]
    constructor
    · exact fun hle => Or.inr ⟨hpon, hone, by omega⟩
    · rintro (⟨hfour, -⟩ | ⟨-, -, hsame⟩) <;> omega

variable (hhand : p.Hand.Counts H)

include hhand

/-- **The candidates.** `AllYouCanGon` lists the tiles of which the hand with the drawn tile
has four, and those it has once beside a melded triplet. -/
theorem mem_allYouCanGon {c : MJCard} :
    c ∈ p.allYouCanGon (cardOf x) ↔
      ∃ y, c = cardOf y ∧
        ((x ::ₘ H).count y = 4 ∨ (x ::ₘ H).count y = 1 ∧ p.HasPon y) := by
  have hcount : ∀ y, (p.Hand.countCard (cardOf y) = 3 ↔ H.count y = 3) ∧
      (p.Hand.countCard (cardOf y) = 4 ↔ H.count y = 4) ∧
      (p.Hand.countCard (cardOf y) = 1 ↔ H.count y = 1) := by
    intro y
    rw [hhand.count_eq]
    omega
  have hself := hcopies x
  rw [Multiset.count_cons_self] at hself
  rw [Irb00.allYouCanGon, List.mem_append, List.mem_filter, decide_eq_true_iff]
  constructor
  · rintro (hc | ⟨hc, hkong⟩)
    · refine ⟨x, ?_⟩
      rw [Multiset.count_cons_self]
      by_cases hthree : p.Hand.countCard (cardOf x) = 3
      · rw [if_pos hthree] at hc
        rw [(hcount x).1] at hthree
        exact ⟨List.mem_singleton.mp hc, Or.inl (by omega)⟩
      · rw [if_neg hthree] at hc
        by_cases hpon : p.pon &&& cardTo34 (cardOf x) ≠ 0
        · rw [if_pos hpon] at hc
          rw [if_pos (show p.HasPon x from hpon)] at hself
          exact ⟨List.mem_singleton.mp hc, Or.inr ⟨by omega, hpon⟩⟩
        · rw [if_neg hpon] at hc
          exact absurd hc List.not_mem_nil
    · obtain ⟨y, rfl⟩ := exists_cardOf_of_mem_gonCards c hc
      rw [(hcount y).2.1, (hcount y).2.2] at hkong
      have hy := hcopies y
      refine ⟨y, rfl, ?_⟩
      rw [Multiset.count_cons] at hy ⊢
      rcases hkong with hfour | ⟨hone, hpon⟩
      · exact Or.inl (by omega)
      · rw [if_pos (show p.HasPon y from hpon)] at hy
        exact Or.inr ⟨by omega, hpon⟩
  · rintro ⟨y, rfl, hkong⟩
    have hy := hcopies y
    by_cases hyx : y = x
    · subst hyx
      refine Or.inl ?_
      rw [Multiset.count_cons_self] at hkong
      rcases hkong with hfour | ⟨hone, hpon⟩
      · rw [if_pos ((hcount y).1.mpr (by omega))]
        exact List.mem_singleton_self _
      · rw [if_neg (mt (hcount y).1.mp (by omega)), if_pos (show _ ≠ _ from hpon)]
        exact List.mem_singleton_self _
    · rw [Multiset.count_cons_of_ne hyx] at hkong
      refine Or.inr ⟨cardOf_mem_gonCards y, ?_⟩
      rw [(hcount y).2.1, (hcount y).2.2]
      exact hkong

/-- **What `GonOrNot` finds**: a kong that keeps the step count, if there is one. -/
theorem gonOrNot_spec (hH : (x ::ₘ H).card = 3 * k + 2) :
    (∃ t, (AnGonKeeps (x ::ₘ H) t ∨ PonGonKeeps p (x ::ₘ H) t) ∧
        p.gonOrNot (cardOf x) true = some (true, cardOf t)) ∨
      ((∀ t, ¬AnGonKeeps (x ::ₘ H) t ∧ ¬PonGonKeeps p (x ::ₘ H) t) ∧
        p.gonOrNot (cardOf x) true = some (false, ⟨-10, -10⟩)) := by
  classical
  have h4 := count_le_of_copies hcopies
  have hroom := h4 x
  rw [Multiset.count_cons_self] at hroom
  have hcard : H.card = 3 * k + 1 := by
    rw [Multiset.card_cons] at hH
    omega
  rw [gonOrNot_eq hhand hcard (by omega)]
  generalize hfind : (p.allYouCanGon (cardOf x)).find? _ = found
  cases found with
  | none =>
      rw [List.find?_eq_none] at hfind
      have hnone : ∀ t, ((x ::ₘ H).count t = 4 ∨ (x ::ₘ H).count t = 1 ∧ p.HasPon t) →
          ¬GonKeeps (x ::ₘ H) t := fun t ht hkeeps =>
        hfind (cardOf t) ((mem_allYouCanGon hcopies hhand).mpr ⟨t, rfl, ht⟩)
          (decide_eq_true ⟨t, rfl, hkeeps⟩)
      refine Or.inr ⟨fun t => ⟨fun han => ?_, fun hpon => ?_⟩, rfl⟩
      · have ht : (x ::ₘ H).count t = 4 ∨ (x ::ₘ H).count t = 1 ∧ p.HasPon t := Or.inl han.1
        exact hnone t ht ((gonKeeps_iff hcopies hH ht).mpr (Or.inl han))
      · have ht : (x ::ₘ H).count t = 4 ∨ (x ::ₘ H).count t = 1 ∧ p.HasPon t :=
          Or.inr ⟨hpon.2.1, hpon.1⟩
        exact hnone t ht ((gonKeeps_iff hcopies hH ht).mpr (Or.inr hpon))
  | some c =>
      obtain ⟨t, rfl, ht⟩ := (mem_allYouCanGon hcopies hhand).mp (List.mem_of_find?_eq_some hfind)
      have hfound := List.find?_some hfind
      obtain ⟨t', heq, hkeeps⟩ := of_decide_eq_true hfound
      obtain rfl := cardOf_inj.mp heq
      exact Or.inl ⟨t, (gonKeeps_iff hcopies hH ht).mp hkeeps, rfl⟩

/-- The answer of `WannaHuGon` without the win: a kong that keeps the step count, and a throw
where there is none. -/
theorem wannaHuGon_cases (hH : (x ::ₘ H).card = 3 * k + 2) :
    (∃ t, AnGonKeeps (x ::ₘ H) t ∧
        p.wannaHuGon false true (cardOf x) = some (.anGon, cardOf t)) ∨
      (∃ t, PonGonKeeps p (x ::ₘ H) t ∧
        p.wannaHuGon false true (cardOf x) = some (.ponGon, cardOf t)) ∨
      ((∀ t, ¬AnGonKeeps (x ::ₘ H) t ∧ ¬PonGonKeeps p (x ::ₘ H) t) ∧
        p.wannaHuGon false true (cardOf x) = (p.throw (cardOf x)).map fun c => (.none, c)) := by
  have hroom := count_le_of_copies hcopies x
  rw [Multiset.count_cons_self] at hroom
  have hadded : (p.Hand.addCard (cardOf x)).Counts (x ::ₘ H) := hhand.addCard (by omega)
  rcases gonOrNot_spec hcopies hhand hH with ⟨t, hkeeps | hkeeps, hgon⟩ | ⟨hnone, hgon⟩
  · have hfour : (p.Hand.addCard (cardOf x)).countCard (cardOf t) = 4 := by
      rw [hadded.count_eq t, hkeeps.1]
      rfl
    exact Or.inl ⟨t, hkeeps, by simp [Irb00.wannaHuGon, hgon, hfour]⟩
  · have hone : (p.Hand.addCard (cardOf x)).countCard (cardOf t) = 1 := by
      rw [hadded.count_eq t, hkeeps.2.1]
      rfl
    exact Or.inr (Or.inl ⟨t, hkeeps, by simp [Irb00.wannaHuGon, hgon, hone]⟩)
  · exact Or.inr (Or.inr ⟨hnone, by simp [Irb00.wannaHuGon, hgon]⟩)

/-- **The kong.** On a draw that does not complete the hand, `WannaHuGon` reaches a return
statement and leaves the player as it was. It declares a concealed kong or the kong of a
melded triplet that keeps the step count, and throws exactly when there is none. -/
theorem wannaHuGon_spec (hH : (x ::ₘ H).card = 3 * k + 2)
    (hcomplete : ¬CompleteHand k (x ::ₘ H)) :
    (InPlace.wannaHuGon p false true (cardOf x)).2 = p ∧
      ((∃ t, AnGonKeeps (x ::ₘ H) t ∧
          (InPlace.wannaHuGon p false true (cardOf x)).1 = some (.anGon, cardOf t)) ∨
        (∃ t, PonGonKeeps p (x ::ₘ H) t ∧
          (InPlace.wannaHuGon p false true (cardOf x)).1 = some (.ponGon, cardOf t)) ∨
        ((∀ t, ¬AnGonKeeps (x ::ₘ H) t ∧ ¬PonGonKeeps p (x ::ₘ H) t) ∧
          ∃ c, InPlace.throw p (cardOf x) = some c ∧
            (InPlace.wannaHuGon p false true (cardOf x)).1 = some (.none, c))) := by
  have h4 := count_le_of_copies hcopies
  have hroom := h4 x
  rw [Multiset.count_cons_self] at hroom
  have hroom' : p.Hand.countCard (cardOf x) < fieldCap (cardOf x).color := by
    rw [hhand.count_eq, fieldCap_cardOf]
    omega
  obtain ⟨hanswer, hplayer⟩ := InPlace.wannaHuGon_eq_inPlace p false true (cardOf_valid x) hroom'
  rw [hanswer] at hplayer ⊢
  rcases wannaHuGon_cases hcopies hhand hH with
    ⟨t, hkong, hwanna⟩ | ⟨t, hkong, hwanna⟩ | ⟨hnone, hwanna⟩
  · exact ⟨hplayer (by rw [hwanna]; rfl), Or.inl ⟨t, hkong, hwanna⟩⟩
  · exact ⟨hplayer (by rw [hwanna]; rfl), Or.inr (Or.inl ⟨t, hkong, hwanna⟩)⟩
  · have hhand' : (p.throwHand (drawnCard (some x))).Holds (combined (some x) H) :=
      holds_combined hhand h4
    have hpos : 1 ≤ handSteps (x ::ₘ H) := by
      have hzero := mt (completeHand_iff h4 hH).mpr hcomplete
      have hdist := handSteps_full h4 hH
      omega
    obtain ⟨c, hthrow⟩ : ∃ c, p.throw (cardOf x) = some c := throw_isSome hhand' h4 hH hpos
    rw [hthrow, Option.map_some] at hwanna
    exact ⟨hplayer (by rw [hwanna]; rfl),
      Or.inr (Or.inr ⟨hnone, c, by rw [InPlace.throw_eq_inPlace, hthrow], hwanna⟩)⟩

end Kong

/-- A hand with three of a kind and a lone tile, on the draw of the fourth. -/
theorem wannaHuGon_spec_four :
    (InPlace.wannaHuGon (playerWith ((MJCards.make false).addCards
        ([0, 0, 0, 1].map cardOf))) false true (cardOf 0)).2 =
      playerWith ((MJCards.make false).addCards ([0, 0, 0, 1].map cardOf)) := by
  have hcounts : ((MJCards.make false).addCards ([0, 0, 0, 1].map cardOf)).Counts
      (0 + ([0, 0, 0, 1] : List Kind)) := counts_make_false.addCards (by decide)
  refine (wannaHuGon_spec (k := 1) (p := playerWith _) (H := ([0, 0, 0, 1] : List Kind))
    (by decide) hcounts rfl ?_).1
  rw [completeHand_iff (by decide) rfl]
  decide +kernel

end MahjongAI
