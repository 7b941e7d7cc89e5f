import Mathlib.Algebra.BigOperators.Group.Finset.Piecewise
import Mathlib.Algebra.BigOperators.Ring.Finset
import Mathlib.Algebra.Ring.Int.Defs
import Mathlib.Data.Fintype.Card

/-!
# Sets in Machine Words

A set of a few elements kept in one word: element `x` owns bit `bit x`. An element is put
in by a bitwise or with its bit, which does nothing when it is there already. It is often
taken out by a plain subtraction of its bit, which is only right when it is there: the
borrow would run through the bits above.

## Main results

* `BitSet.or`, `BitSet.sub`: the two updates.
* `BitSet.and_eq_zero`: words of disjoint sets have no bit in common.
* `BitSet.toInt_nonneg`: a word without its topmost bit is not negative.
* `BitSet.sum_bits`: the sum of the bits is the number of elements.
-/

namespace BitSets

variable {w : ℕ} {α : Type*} {bit : α → ℕ} {v u : BitVec w} {P Q : α → Prop}

/-- The word `v` has exactly the bits of the elements with the property `P`. -/
def BitSet (bit : α → ℕ) (v : BitVec w) (P : α → Prop) : Prop :=
  ∀ i, v.getLsbD i = true ↔ ∃ x, bit x = i ∧ P x

theorem bitSet_zero (bit : α → ℕ) : BitSet bit (0 : BitVec w) fun _ => False := by
  intro i
  simp

theorem BitSet.congr (h : BitSet bit v P) (hPQ : ∀ x, P x ↔ Q x) : BitSet bit v Q := by
  intro i
  simpa only [hPQ] using h i

/-- The bit of an element is set exactly when the element is in the set. -/
theorem BitSet.getLsbD_iff (hbit : Function.Injective bit) (h : BitSet bit v P) (x : α) :
    v.getLsbD (bit x) = true ↔ P x := by
  rw [h (bit x)]
  constructor
  · rintro ⟨y, hy, hP⟩
    exact hbit hy ▸ hP
  · exact fun hP => ⟨x, rfl, hP⟩

/-- **Putting an element in**: a bitwise or with its bit. -/
theorem BitSet.or {x : α} (h : BitSet bit v P) (hx : bit x < w) :
    BitSet bit (v ||| BitVec.twoPow w (bit x)) fun y => P y ∨ y = x := by
  intro i
  rw [BitVec.getLsbD_or, BitVec.getLsbD_twoPow, Bool.or_eq_true, h i]
  constructor
  · rintro (⟨y, hy, hP⟩ | hi)
    · exact ⟨y, hy, Or.inl hP⟩
    · have hi : bit x < w ∧ bit x = i := by simpa using hi
      exact ⟨x, hi.2, Or.inr rfl⟩
  · rintro ⟨y, rfl, hP | rfl⟩
    · exact Or.inl ⟨y, rfl, hP⟩
    · exact Or.inr (by simp [hx])

/-- Subtracting a bit that is set clears it. -/
theorem sub_twoPow_eq {j : ℕ} (hj : v.getLsbD j = true) :
    v - BitVec.twoPow w j = v &&& ~~~BitVec.twoPow w j := by
  have hdisjoint : (v &&& ~~~BitVec.twoPow w j) &&& BitVec.twoPow w j = 0#w := by
    refine BitVec.eq_of_getLsbD_eq fun i hi => ?_
    simp only [BitVec.getLsbD_and, BitVec.getLsbD_not, BitVec.getLsbD_zero]
    cases (BitVec.twoPow w j).getLsbD i <;> simp
  have hsplit : (v &&& ~~~BitVec.twoPow w j) + BitVec.twoPow w j = v := by
    rw [BitVec.add_eq_or_of_and_eq_zero _ _ hdisjoint]
    refine BitVec.eq_of_getLsbD_eq fun i hi => ?_
    simp only [BitVec.getLsbD_or, BitVec.getLsbD_and, BitVec.getLsbD_not,
      BitVec.getLsbD_twoPow, hi, decide_true, Bool.true_and]
    by_cases hij : j = i
    · subst hij
      simp [hj, hi]
    · simp [hij]
  calc v - BitVec.twoPow w j
      = (v &&& ~~~BitVec.twoPow w j) + BitVec.twoPow w j - BitVec.twoPow w j := by rw [hsplit]
    _ = v &&& ~~~BitVec.twoPow w j := BitVec.add_sub_cancel _ _

/-- **Taking an element out**: a subtraction of its bit, when it is there. -/
theorem BitSet.sub {x : α} (hbit : Function.Injective bit) (h : BitSet bit v P) (hx : P x) :
    BitSet bit (v - BitVec.twoPow w (bit x)) fun y => P y ∧ y ≠ x := by
  have hset : v.getLsbD (bit x) = true := (h.getLsbD_iff hbit x).mpr hx
  have hlt : bit x < w := BitVec.lt_of_getLsbD hset
  intro i
  rw [sub_twoPow_eq hset, BitVec.getLsbD_and, BitVec.getLsbD_not, BitVec.getLsbD_twoPow,
    Bool.and_eq_true, h i]
  constructor
  · rintro ⟨⟨y, hy, hP⟩, hi⟩
    refine ⟨y, hy, hP, ?_⟩
    rintro rfl
    simp [hy, hy ▸ hlt] at hi
  · rintro ⟨y, hy, hP, hne⟩
    have hset' : v.getLsbD (bit y) = true := (h.getLsbD_iff hbit y).mpr hP
    have hi : bit x ≠ bit y := fun hxy => hne (hbit hxy.symm)
    exact ⟨⟨y, hy, hP⟩, by simp [← hy, hi, BitVec.lt_of_getLsbD hset']⟩

/-- Words of disjoint sets have no bit in common. -/
theorem BitSet.and_eq_zero (hbit : Function.Injective bit) (h : BitSet bit v P)
    (h' : BitSet bit u Q) (hPQ : ∀ x, P x → ¬ Q x) : v &&& u = 0 := by
  refine BitVec.eq_of_getLsbD_eq fun i _ => ?_
  rw [BitVec.getLsbD_and, BitVec.ofNat_eq_ofNat, BitVec.getLsbD_zero]
  by_contra hboth
  rw [Bool.not_eq_false, Bool.and_eq_true] at hboth
  obtain ⟨x, rfl, hP⟩ := (h i).mp hboth.1
  exact hPQ x hP ((h'.getLsbD_iff hbit x).mp hboth.2)

/-- A word whose elements lie below its topmost bit is not negative. -/
theorem BitSet.msb_eq_false (h : BitSet bit v P) (hlt : ∀ x, bit x + 1 < w) : v.msb = false := by
  rw [BitVec.msb_eq_getLsbD_last]
  by_contra hset
  rw [Bool.not_eq_false] at hset
  obtain ⟨x, hx, -⟩ := (h _).mp hset
  have := hlt x
  omega

theorem BitSet.toInt_nonneg (h : BitSet bit v P) (hlt : ∀ x, bit x + 1 < w) : 0 ≤ v.toInt := by
  rw [BitVec.toInt_eq_toNat_of_msb (h.msb_eq_false hlt)]
  exact Int.natCast_nonneg _

/-! ### Reading -/

/-- A field of `m` bits of a word that is not negative, read by a shift and a mask. -/
theorem toInt_sshiftRight_and (hmsb : v.msb = false) (s : ℕ) {m : ℕ} (hm : m < w) :
    (v.sshiftRight s &&& BitVec.ofNat w (2 ^ m - 1)).toInt = (v.toNat / 2 ^ s % 2 ^ m : ℕ) := by
  have hpow : 2 ^ m * 2 ≤ 2 ^ w := by
    rw [← pow_succ]
    exact Nat.pow_le_pow_right Nat.two_pos hm
  have hpos : 0 < 2 ^ m := Nat.two_pow_pos m
  have hread : (v.sshiftRight s &&& BitVec.ofNat w (2 ^ m - 1)).toNat =
      v.toNat / 2 ^ s % 2 ^ m := by
    rw [BitVec.sshiftRight_eq_of_msb_false hmsb, BitVec.toNat_and, BitVec.toNat_ushiftRight,
      BitVec.toNat_ofNat, Nat.mod_eq_of_lt (by omega), Nat.and_two_pow_sub_one_eq_mod,
      Nat.shiftRight_eq_div_pow]
  have hlt : v.toNat / 2 ^ s % 2 ^ m < 2 ^ m := Nat.mod_lt _ hpos
  rw [BitVec.toInt_eq_toNat_of_lt (by omega), hread]

/-- **The sum of the bits** is the number of elements. -/
theorem BitSet.sum_bits [Fintype α] [DecidablePred P] (hbit : Function.Injective bit)
    (h : BitSet bit v P) {n : ℕ} (hlt : ∀ x, bit x < n) (hn : n < w) :
    ((List.range n).map fun i => (v.sshiftRight i &&& 1).toInt).sum =
      (Finset.univ.filter P).card := by
  have hmsb : v.msb = false := h.msb_eq_false fun x => by
    have := hlt x
    omega
  by_cases hw : 1 < w
  swap
  · obtain rfl : n = 0 := by omega
    have hempty : Finset.univ.filter P = ∅ := by
      refine Finset.filter_eq_empty_iff.mpr fun x _ => ?_
      exact absurd (hlt x) (by omega)
    simp [hempty]
  have hone : ∀ i : ℕ, (v.sshiftRight i &&& 1).toInt = if v.getLsbD i = true then 1 else 0 := by
    intro i
    have hread := toInt_sshiftRight_and hmsb i hw
    have hbit : v.toNat / 2 ^ i % 2 ^ 1 = (v.getLsbD i).toNat := by
      rw [pow_one, ← Nat.toNat_testBit, BitVec.testBit_toNat]
    rw [hbit] at hread
    refine hread.trans ?_
    cases v.getLsbD i <;> rfl
  have himage : (Finset.range n).filter (fun i => v.getLsbD i = true) =
      (Finset.univ.filter P).image bit := by
    ext i
    rw [Finset.mem_filter, Finset.mem_image, h i, Finset.mem_range]
    constructor
    · rintro ⟨-, x, hx, hP⟩
      exact ⟨x, by simpa using hP, hx⟩
    · rintro ⟨x, hx, rfl⟩
      exact ⟨hlt x, x, rfl, by simpa using hx⟩
  calc ((List.range n).map fun i => (v.sshiftRight i &&& 1).toInt).sum
      = ∑ i ∈ Finset.range n, if v.getLsbD i = true then (1 : ℤ) else 0 := by
        simp only [hone]
        rfl
    _ = ((Finset.range n).filter fun i => v.getLsbD i = true).card := by
        rw [Finset.card_filter]
        push_cast
        rfl
    _ = (Finset.univ.filter P).card := by
        rw [himage, Finset.card_image_of_injective _ hbit]

end BitSets
