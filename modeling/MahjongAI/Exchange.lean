import Mathlib.Algebra.BigOperators.Group.Multiset.Basic
import Mathlib.Algebra.Order.BigOperators.Group.Multiset
import Mathlib.Algebra.Order.Sub.Basic
import Mathlib.Data.Multiset.AddSub
import Mathlib.Data.Multiset.OrderedMonoid
import Mathlib.Data.Multiset.UnionInter
import Mathlib.Order.Bounds.Basic
import Mathlib.Order.Lattice.Nat

/-!
# Exchange Distance to a Set-Collection Target

In a set-collection game the player exchanges items of a hand one by one until the hand
contains a target: `k` *groups* from a fixed family `𝒢` and one *head* from a fixed
family `𝓗`. This module is the mathematics of that target over an arbitrary type of
items: `Complete 𝒢 𝓗 k W` says that the multiset `W` is such a target, and
`dist 𝒢 𝓗 k T` is the least number of items of a target that the hand `T` does not hold,
`min { |W - T| : W complete }`.

## Main results

* `isLeast_dist`: the minimum is attained, once both families are nonempty.
* `dist_eq_zero_iff`: distance zero means that the hand contains a target.
* `dist_anti`, `dist_le_add_card`: more items never hurt, and `n` items help by at most
  `n`. `dist_cons_eq_or` packages both for one item.
* `dist_succ_le`: setting aside the part `S` of a group costs what the group lacks.
* `dist_le_of_part`: the parts a hand holds bound its distance.
* `dist_cons_add_one_iff`: the items that improve a hand are exactly those that some
  nearest target lacks.
* `exists_dist_erase_eq`: a hand that is not complete can do without one of its items.
* `dist_add_one_eq_iff`: a claim helps exactly when some nearest target has the claimed
  group and lacks the claimed item.
* `exists_parts_of_le_sum`: a part of a sum of multisets splits along the summands.
-/

namespace Exchange

variable {α : Type*}

/-- `W` is a target: the sum of `k` groups and one head. -/
def Complete (𝒢 𝓗 : Set (Multiset α)) (k : ℕ) (W : Multiset α) : Prop :=
  ∃ (G : Multiset (Multiset α)) (p : Multiset α),
    G.card = k ∧ (∀ m ∈ G, m ∈ 𝒢) ∧ p ∈ 𝓗 ∧ W = G.sum + p

/-- One more group makes a target with one more group. -/
theorem Complete.add_group {𝒢 𝓗 : Set (Multiset α)} {k : ℕ} {W g : Multiset α}
    (h : Complete 𝒢 𝓗 k W) (hg : g ∈ 𝒢) : Complete 𝒢 𝓗 (k + 1) (W + g) := by
  obtain ⟨G, p, hG, hm, hp, rfl⟩ := h
  refine ⟨g ::ₘ G, p, by simp [hG], ?_, hp, ?_⟩
  · intro m hmem
    rcases Multiset.mem_cons.mp hmem with rfl | hmem
    · exact hg
    · exact hm m hmem
  · rw [Multiset.sum_cons, add_right_comm, add_comm g]

/-- With both families nonempty there is a target for every number of groups. -/
theorem exists_complete {𝒢 𝓗 : Set (Multiset α)} (h𝒢 : 𝒢.Nonempty) (h𝓗 : 𝓗.Nonempty)
    (k : ℕ) : ∃ W, Complete 𝒢 𝓗 k W := by
  obtain ⟨g, hg⟩ := h𝒢
  obtain ⟨p, hp⟩ := h𝓗
  induction k with
  | zero => exact ⟨p, 0, p, by simp, by simp, hp, by simp⟩
  | succ k ih =>
      obtain ⟨W, hW⟩ := ih
      exact ⟨W + g, hW.add_group hg⟩

/-! ### Parts of groups

A hand reaches a target by completing parts that it holds. -/

/-- The items `A` lack `d` items of `k` groups. -/
def Part (𝒢 : Set (Multiset α)) (k : ℕ) (A : Multiset α) (d : ℕ) : Prop :=
  ∃ (G : Multiset (Multiset α)) (M : Multiset α),
    G.card = k ∧ (∀ m ∈ G, m ∈ 𝒢) ∧ M.card = d ∧ G.sum = A + M

/-- The part `A` of one group. -/
theorem part_one {𝒢 : Set (Multiset α)} {A M : Multiset α} (h : A + M ∈ 𝒢) :
    Part 𝒢 1 A M.card :=
  ⟨{A + M}, M, by simp, by simpa using h, rfl, by simp⟩

/-- Parts of different groups add up. -/
theorem Part.add {𝒢 : Set (Multiset α)} {k k' d d' : ℕ} {A A' : Multiset α}
    (h : Part 𝒢 k A d) (h' : Part 𝒢 k' A' d') : Part 𝒢 (k + k') (A + A') (d + d') := by
  obtain ⟨G, M, hG, hmem, hd, hsum⟩ := h
  obtain ⟨G', M', hG', hmem', hd', hsum'⟩ := h'
  refine ⟨G + G', M + M', by simp [hG, hG'], ?_, by simp [hd, hd'], ?_⟩
  · intro m hm
    rcases Multiset.mem_add.mp hm with hm | hm
    · exact hmem m hm
    · exact hmem' m hm
  · rw [Multiset.sum_add, hsum, hsum', add_add_add_comm]

/-- Parts of one group each, all lacking the same number of items. -/
theorem part_sum {𝒢 : Set (Multiset α)} {L : List (Multiset α)} {d : ℕ}
    (h : ∀ m ∈ L, Part 𝒢 1 m d) : Part 𝒢 L.length L.sum (L.length * d) := by
  induction L with
  | nil => exact ⟨0, 0, by simp, by simp, by simp, by simp⟩
  | cons m L ih =>
      have hm := h m List.mem_cons_self
      have hadd := (ih fun m' hm' => h m' (List.mem_cons_of_mem m hm')).add hm
      rw [List.sum_cons, List.length_cons, add_comm m, Nat.succ_mul]
      exact hadd

/-! ### The distance -/

variable [DecidableEq α]

/-- The numbers of missing items over all targets with `k` groups. -/
def distances (𝒢 𝓗 : Set (Multiset α)) (k : ℕ) (T : Multiset α) : Set ℕ :=
  {d | ∃ W, Complete 𝒢 𝓗 k W ∧ (W - T).card = d}

/-- The **exchange distance** from the hand `T` to the targets with `k` groups. -/
noncomputable def dist (𝒢 𝓗 : Set (Multiset α)) (k : ℕ) (T : Multiset α) : ℕ :=
  sInf (distances 𝒢 𝓗 k T)

variable {𝒢 𝓗 : Set (Multiset α)} {k : ℕ} {T : Multiset α}

/-- A target bounds the distance. -/
theorem dist_le {W : Multiset α} (h : Complete 𝒢 𝓗 k W) :
    dist 𝒢 𝓗 k T ≤ (W - T).card :=
  Nat.sInf_le ⟨W, h, rfl⟩

/-- The distance is attained. -/
theorem exists_card_sub_eq_dist (h𝒢 : 𝒢.Nonempty) (h𝓗 : 𝓗.Nonempty) (k : ℕ)
    (T : Multiset α) : ∃ W, Complete 𝒢 𝓗 k W ∧ (W - T).card = dist 𝒢 𝓗 k T := by
  obtain ⟨W, hW⟩ := exists_complete h𝒢 h𝓗 k
  exact Nat.sInf_mem (s := distances 𝒢 𝓗 k T) ⟨_, W, hW, rfl⟩

/-- The distance is the minimum over all targets. -/
theorem isLeast_dist (h𝒢 : 𝒢.Nonempty) (h𝓗 : 𝓗.Nonempty) (k : ℕ) (T : Multiset α) :
    IsLeast {d | ∃ W, Complete 𝒢 𝓗 k W ∧ (W - T).card = d} (dist 𝒢 𝓗 k T) := by
  refine ⟨exists_card_sub_eq_dist h𝒢 h𝓗 k T, ?_⟩
  rintro d ⟨W, hW, rfl⟩
  exact dist_le hW

/-- Distance zero means that the hand contains a target. -/
theorem dist_eq_zero_iff (h𝒢 : 𝒢.Nonempty) (h𝓗 : 𝓗.Nonempty) :
    dist 𝒢 𝓗 k T = 0 ↔ ∃ W, Complete 𝒢 𝓗 k W ∧ W ≤ T := by
  constructor
  · intro h
    obtain ⟨W, hW, hcard⟩ := exists_card_sub_eq_dist h𝒢 h𝓗 k T
    rw [h, Multiset.card_eq_zero] at hcard
    exact ⟨W, hW, tsub_eq_zero_iff_le.mp hcard⟩
  · rintro ⟨W, hW, hle⟩
    have h := dist_le (T := T) hW
    rw [tsub_eq_zero_iff_le.mpr hle] at h
    simpa using h

/-- **Completing parts.** Parts of `k` groups and of a head that lie in the hand bound the
distance by the items they lack. -/
theorem dist_le_of_part {A B M : Multiset α} {d : ℕ} (h : Part 𝒢 k A d) (hp : B + M ∈ 𝓗)
    (hle : A + B ≤ T) : dist 𝒢 𝓗 k T ≤ d + M.card := by
  obtain ⟨G, N, hG, hmem, rfl, hsum⟩ := h
  have hW : Complete 𝒢 𝓗 k (G.sum + (B + M)) := ⟨G, B + M, hG, hmem, hp, rfl⟩
  have hrest : G.sum + (B + M) - T ≤ N + M := by
    rw [hsum, add_add_add_comm]
    exact tsub_le_iff_right.mpr (by rw [add_comm]; gcongr)
  calc dist 𝒢 𝓗 k T ≤ (G.sum + (B + M) - T).card := dist_le hW
    _ ≤ (N + M).card := Multiset.card_le_card hrest
    _ = N.card + M.card := Multiset.card_add _ _

/-! ### How the distance moves with the hand -/

/-- More items never hurt. -/
theorem dist_anti (h𝒢 : 𝒢.Nonempty) (h𝓗 : 𝓗.Nonempty) {T' : Multiset α} (h : T ≤ T') :
    dist 𝒢 𝓗 k T' ≤ dist 𝒢 𝓗 k T := by
  obtain ⟨W, hW, hcard⟩ := exists_card_sub_eq_dist h𝒢 h𝓗 k T
  calc dist 𝒢 𝓗 k T' ≤ (W - T').card := dist_le hW
    _ ≤ (W - T).card := Multiset.card_le_card (tsub_le_tsub_left h W)
    _ = dist 𝒢 𝓗 k T := hcard

/-- Adding `S` helps by at most `|S|`. -/
theorem dist_le_add_card (h𝒢 : 𝒢.Nonempty) (h𝓗 : 𝓗.Nonempty) (T S : Multiset α) :
    dist 𝒢 𝓗 k T ≤ dist 𝒢 𝓗 k (T + S) + S.card := by
  obtain ⟨W, hW, hcard⟩ := exists_card_sub_eq_dist h𝒢 h𝓗 k (T + S)
  have hle : W - T ≤ (W - (T + S)) + S := by
    rw [← tsub_tsub]
    exact le_tsub_add
  calc dist 𝒢 𝓗 k T ≤ (W - T).card := dist_le hW
    _ ≤ ((W - (T + S)) + S).card := Multiset.card_le_card hle
    _ = dist 𝒢 𝓗 k (T + S) + S.card := by rw [Multiset.card_add, hcard]

/-- One item keeps the distance or lowers it by one. -/
theorem dist_cons_eq_or (h𝒢 : 𝒢.Nonempty) (h𝓗 : 𝓗.Nonempty) (T : Multiset α) (x : α) :
    dist 𝒢 𝓗 k (x ::ₘ T) = dist 𝒢 𝓗 k T ∨ dist 𝒢 𝓗 k (x ::ₘ T) + 1 = dist 𝒢 𝓗 k T := by
  have hle : dist 𝒢 𝓗 k (x ::ₘ T) ≤ dist 𝒢 𝓗 k T :=
    dist_anti h𝒢 h𝓗 (Multiset.le_cons_self T x)
  have hge := dist_le_add_card (k := k) h𝒢 h𝓗 T {x}
  rw [add_comm T, Multiset.singleton_add, Multiset.card_singleton] at hge
  omega

/-- Setting the items `S` aside for a group costs at most what that group still lacks:
a target for the rest and the group together are a target with one more group. -/
theorem dist_succ_le (h𝒢 : 𝒢.Nonempty) (h𝓗 : 𝓗.Nonempty) {g : Multiset α} (hg : g ∈ 𝒢)
    (T S : Multiset α) :
    dist 𝒢 𝓗 (k + 1) (T + S) ≤ dist 𝒢 𝓗 k T + (g - S).card := by
  obtain ⟨W, hW, hcard⟩ := exists_card_sub_eq_dist h𝒢 h𝓗 k T
  calc dist 𝒢 𝓗 (k + 1) (T + S) ≤ ((W + g) - (T + S)).card := dist_le (hW.add_group hg)
    _ ≤ ((W - T) + (g - S)).card := Multiset.card_le_card add_tsub_add_le_tsub_add_tsub
    _ = dist 𝒢 𝓗 k T + (g - S).card := by rw [Multiset.card_add, hcard]

/-- **The improving items** are exactly the items some nearest target lacks. -/
theorem dist_cons_add_one_iff (h𝒢 : 𝒢.Nonempty) (h𝓗 : 𝓗.Nonempty) (T : Multiset α)
    (x : α) :
    dist 𝒢 𝓗 k (x ::ₘ T) + 1 = dist 𝒢 𝓗 k T ↔
      ∃ W, Complete 𝒢 𝓗 k W ∧ (W - T).card = dist 𝒢 𝓗 k T ∧ x ∈ W - T := by
  have herase : ∀ W : Multiset α, W - x ::ₘ T = (W - T).erase x := by
    intro W
    rw [← Multiset.singleton_add, add_comm, ← tsub_tsub, Multiset.sub_singleton]
  constructor
  · intro h
    obtain ⟨W, hW, hcard⟩ := exists_card_sub_eq_dist (k := k) h𝒢 h𝓗 (x ::ₘ T)
    have hle := dist_le (T := T) hW
    rw [herase] at hcard
    by_cases hx : x ∈ W - T
    · have := Multiset.card_erase_add_one hx
      exact ⟨W, hW, by omega, hx⟩
    · rw [Multiset.erase_of_notMem hx] at hcard
      omega
  · rintro ⟨W, hW, hcard, hx⟩
    have hle := dist_le (T := x ::ₘ T) hW
    rw [herase] at hle
    have := Multiset.card_erase_add_one hx
    rcases dist_cons_eq_or (k := k) h𝒢 h𝓗 T x with h | h <;> omega

/-- A hand that is not complete has an improving item. -/
theorem exists_dist_cons_add_one (h𝒢 : 𝒢.Nonempty) (h𝓗 : 𝓗.Nonempty)
    (h : 0 < dist 𝒢 𝓗 k T) : ∃ x, dist 𝒢 𝓗 k (x ::ₘ T) + 1 = dist 𝒢 𝓗 k T := by
  obtain ⟨W, hW, hcard⟩ := exists_card_sub_eq_dist (k := k) h𝒢 h𝓗 T
  obtain ⟨x, hx⟩ := Multiset.card_pos_iff_exists_mem.mp (hcard ▸ h)
  exact ⟨x, (dist_cons_add_one_iff h𝒢 h𝓗 T x).mpr ⟨W, hW, hcard, hx⟩⟩

/-- A hand at least as large as the targets that is not complete has an item it can do
without: one that a nearest target does not use. -/
theorem exists_dist_erase_eq (h𝒢 : 𝒢.Nonempty) (h𝓗 : 𝓗.Nonempty)
    (hcard : ∀ W, Complete 𝒢 𝓗 k W → W.card ≤ T.card) (h : 0 < dist 𝒢 𝓗 k T) :
    ∃ x ∈ T, dist 𝒢 𝓗 k (T.erase x) = dist 𝒢 𝓗 k T := by
  obtain ⟨W, hW, hdist⟩ := exists_card_sub_eq_dist (k := k) h𝒢 h𝓗 T
  have hspare : 0 < (T - W).card := by
    have hWT := congrArg Multiset.card (Multiset.sub_add_inter W T)
    have hTW := congrArg Multiset.card (Multiset.sub_add_inter T W)
    rw [Multiset.card_add] at hWT hTW
    rw [Multiset.inter_comm] at hTW
    have := hcard W hW
    omega
  obtain ⟨x, hx⟩ := Multiset.card_pos_iff_exists_mem.mp hspare
  have hcount : W.count x < T.count x := by
    have := Multiset.count_pos.mpr hx
    rw [Multiset.count_sub] at this
    omega
  have hsame : W - T.erase x = W - T := by
    refine Multiset.ext.mpr fun y => ?_
    rw [Multiset.count_sub, Multiset.count_sub]
    by_cases hy : y = x
    · subst hy
      rw [Multiset.count_erase_self]
      omega
    · rw [Multiset.count_erase_of_ne hy]
  refine ⟨x, Multiset.count_pos.mp (by omega), le_antisymm ?_ ?_⟩
  · calc dist 𝒢 𝓗 k (T.erase x) ≤ (W - T.erase x).card := dist_le hW
      _ = dist 𝒢 𝓗 k T := by rw [hsame, hdist]
  · exact dist_anti h𝒢 h𝓗 (Multiset.erase_le x T)

/-- **A claim helps** exactly when some nearest target has the claimed group `z ::ₘ S`
among its own and lacks the claimed item. -/
theorem dist_add_one_eq_iff (h𝒢 : 𝒢.Nonempty) (h𝓗 : 𝓗.Nonempty) {z : α} {S : Multiset α}
    (hg : z ::ₘ S ∈ 𝒢) (T : Multiset α) :
    dist 𝒢 𝓗 k T + 1 = dist 𝒢 𝓗 (k + 1) (T + S) ↔
      ∃ W, Complete 𝒢 𝓗 k W ∧
        ((W + z ::ₘ S) - (T + S)).card = dist 𝒢 𝓗 (k + 1) (T + S) ∧
          z ∈ (W + z ::ₘ S) - (T + S) := by
  have hle := dist_succ_le (k := k) h𝒢 h𝓗 hg T S
  have hone : (z ::ₘ S - S).card = 1 := by
    rw [← Multiset.singleton_add, add_tsub_cancel_right, Multiset.card_singleton]
  rw [hone] at hle
  have hcons : ∀ W : Multiset α, (W + z ::ₘ S) - (T + S) = z ::ₘ W - T := by
    intro W
    rw [Multiset.add_cons, ← Multiset.cons_add, add_tsub_add_eq_tsub_right]
  have herase : ∀ W : Multiset α, (z ::ₘ W - T).erase z = W - T := by
    intro W
    rw [← Multiset.sub_singleton, tsub_right_comm, Multiset.sub_singleton, Multiset.erase_cons_head]
  constructor
  · intro h
    obtain ⟨W, hW, hcard⟩ := exists_card_sub_eq_dist (k := k) h𝒢 h𝓗 T
    have hge := dist_le (T := T + S) (hW.add_group hg)
    rw [hcons] at hge
    have hz : z ∈ z ::ₘ W - T := by
      by_contra hz
      have hsame := herase W
      rw [Multiset.erase_of_notMem hz] at hsame
      rw [hsame] at hge
      omega
    have hcard' := Multiset.card_erase_add_one hz
    rw [herase] at hcard'
    exact ⟨W, hW, by rw [hcons]; omega, by rwa [hcons]⟩
  · rintro ⟨W, hW, hcard, hz⟩
    rw [hcons] at hcard hz
    have hcard' := Multiset.card_erase_add_one hz
    rw [herase] at hcard'
    have := dist_le (T := T) hW
    omega

/-! ### Splitting a part of a sum -/

/-- A part of a sum of multisets splits along the summands. -/
theorem exists_parts_of_le_sum {I : Multiset α} {L : List (Multiset α)} (h : I ≤ L.sum) :
    ∃ P : List (Multiset α), List.Forall₂ (· ≤ ·) P L ∧ P.sum = I := by
  induction L generalizing I with
  | nil =>
      obtain rfl : I = 0 := Multiset.le_zero.mp h
      exact ⟨[], List.Forall₂.nil, rfl⟩
  | cons m L ih =>
      rw [List.sum_cons] at h
      obtain ⟨P, hP, hsum⟩ := ih (I := I - m) (tsub_le_iff_left.mpr h)
      refine ⟨(I ∩ m) :: P, List.Forall₂.cons (Multiset.inter_le_right) hP, ?_⟩
      rw [List.sum_cons, hsum, add_comm]
      exact Multiset.sub_add_inter I m

end Exchange
