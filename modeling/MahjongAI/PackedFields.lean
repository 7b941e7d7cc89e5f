import Mathlib.Algebra.Order.Group.Int
import Mathlib.Tactic.Ring
import Mathlib.Tactic.Linarith

/-!
# Packed Counters in One Machine Word

A common way to keep a small multiset is to pack one counter of `w` bits per kind into
a single integer: kind `i` owns the bits `i * w, …, i * w + w - 1`, is read by a shift
and a mask, and is changed by adding or subtracting `1 << (i * w)`. Plain addition and
subtraction act on the whole word, so each update is only as good as the argument that
nothing carries or borrows between neighbours.

This module is that argument, for words over `ℤ` (so that a borrow out of the word is
visible as a wrong field and not as a wrap) and any width `w`.

## Main results

* `field_add`, `field_sub`: whole-word addition and subtraction act field by field when
  no field up to the one read overflows, respectively underflows.
* `field_add_unit`, `field_sub_unit`: the same for one counter moved by one.
* `field_eq_zero_of_lt`: a word in range has no further fields.
* `field_pack`, `pack_field`: `pack` writes a vector of counters, `field` reads it back,
  and a word below `2 ^ (n * w)` is the pack of its own fields. `pack_field_eq_emod`: any
  other word is that modulo `2 ^ (n * w)`.
* `pack_add`, `pack_sum`: where nothing carries, whole words add up as their fields do.
* `add_unit_lt`, `unit_le_of_field_pos`: a counter moved within its room keeps the word
  in range.
* `field_shift_add`: one word put above another keeps the counters of both.
-/

namespace Packed

/-- The `w`-bit field number `i` of the packed word `v`: `(v >> (i * w)) & (2 ^ w - 1)`.
Keeping the low `w` bits of a two's complement integer is its remainder by `2 ^ w`. -/
def field (w : ℕ) (v : ℤ) (i : ℕ) : ℤ :=
  (v >>> (i * w)) % 2 ^ w

/-- The word that holds `1` in field `i` and `0` elsewhere: `1 << (i * w)`. -/
def unit (w i : ℕ) : ℤ :=
  (1 : ℤ) <<< (i * w)

theorem field_eq (w : ℕ) (v : ℤ) (i : ℕ) : field w v i = v / 2 ^ (i * w) % 2 ^ w := by
  simp [field, Int.shiftRight_eq_div_pow]

theorem unit_eq (w i : ℕ) : unit w i = 2 ^ (i * w) := by
  simp [unit, Int.shiftLeft_eq]

theorem unit_nonneg (w i : ℕ) : 0 ≤ unit w i := by
  rw [unit_eq]
  positivity

theorem field_nonneg (w : ℕ) (v : ℤ) (i : ℕ) : 0 ≤ field w v i :=
  Int.emod_nonneg _ (by positivity)

theorem field_lt (w : ℕ) (v : ℤ) (i : ℕ) : field w v i < 2 ^ w :=
  Int.emod_lt_of_pos _ (by positivity)

/-- Field `0` is the remainder by one field. -/
theorem field_zero_right (w : ℕ) (v : ℤ) : field w v 0 = v % 2 ^ w := by
  simp [field_eq]

/-- Reading further fields is reading the shifted word. -/
theorem field_succ (w : ℕ) (v : ℤ) (i : ℕ) :
    field w v (i + 1) = field w (v / 2 ^ w) i := by
  rw [field_eq, field_eq, Int.ediv_ediv_of_nonneg (by positivity), ← pow_add,
    show (i + 1) * w = w + i * w by ring]

/-- A word below `2 ^ (n * w)` has nothing in the fields from `n` up. -/
theorem field_eq_zero_of_lt {w n i : ℕ} {v : ℤ} (h0 : 0 ≤ v) (h1 : v < 2 ^ (n * w)) (hi : n ≤ i) :
    field w v i = 0 := by
  have hpow : (2 : ℤ) ^ (n * w) ≤ 2 ^ (i * w) :=
    pow_le_pow_right₀ (by norm_num) (Nat.mul_le_mul_right w hi)
  rw [field_eq, Int.ediv_eq_zero_of_lt h0 (h1.trans_le hpow), Int.zero_emod]

@[simp] theorem field_zero (w i : ℕ) : field w 0 i = 0 := by
  simp [field_eq]

/-! ### Addition and subtraction without carry -/

/-- **No carry.** Whole-word addition adds the fields when no field up to the one read
overflows. -/
theorem field_add {w : ℕ} {v m : ℤ} {i : ℕ}
    (h : ∀ j ≤ i, field w v j + field w m j < 2 ^ w) :
    field w (v + m) i = field w v i + field w m i := by
  induction i generalizing v m with
  | zero =>
      have h0 := h 0 le_rfl
      rw [field_zero_right, field_zero_right] at h0
      rw [field_zero_right, field_zero_right, field_zero_right, Int.add_emod,
        Int.emod_eq_of_lt _ h0]
      have := Int.emod_nonneg v (show (2 : ℤ) ^ w ≠ 0 by positivity)
      have := Int.emod_nonneg m (show (2 : ℤ) ^ w ≠ 0 by positivity)
      omega
  | succ i ih =>
      have h0 := h 0 (Nat.zero_le _)
      rw [field_zero_right, field_zero_right] at h0
      have hdiv : (v + m) / 2 ^ w = v / 2 ^ w + m / 2 ^ w := by
        have hpos : (0 : ℤ) < 2 ^ w := by positivity
        have hv := Int.mul_ediv_add_emod v (2 ^ w)
        have hm := Int.mul_ediv_add_emod m (2 ^ w)
        have hv0 := Int.emod_nonneg v hpos.ne'
        have hm0 := Int.emod_nonneg m hpos.ne'
        rw [show v + m = (v % 2 ^ w + m % 2 ^ w) + (v / 2 ^ w + m / 2 ^ w) * 2 ^ w by
          linarith, Int.add_mul_ediv_right _ _ hpos.ne',
          Int.ediv_eq_zero_of_lt (by omega) h0, zero_add]
      rw [field_succ, field_succ, field_succ, hdiv]
      refine ih fun j hj => ?_
      rw [← field_succ, ← field_succ]
      exact h (j + 1) (by omega)

/-- **No borrow.** Whole-word subtraction subtracts the fields when no field up to the
one read underflows. -/
theorem field_sub {w : ℕ} {v m : ℤ} {i : ℕ}
    (h : ∀ j ≤ i, field w m j ≤ field w v j) :
    field w (v - m) i = field w v i - field w m i := by
  induction i generalizing v m with
  | zero =>
      have h0 := h 0 le_rfl
      rw [field_zero_right, field_zero_right] at h0
      have hpos : (0 : ℤ) < 2 ^ w := by positivity
      have hm0 := Int.emod_nonneg m hpos.ne'
      have hv1 := Int.emod_lt_of_pos v hpos
      rw [field_zero_right, field_zero_right, field_zero_right, Int.sub_emod,
        Int.emod_eq_of_lt (by omega) (by omega)]
  | succ i ih =>
      have h0 := h 0 (Nat.zero_le _)
      rw [field_zero_right, field_zero_right] at h0
      have hdiv : (v - m) / 2 ^ w = v / 2 ^ w - m / 2 ^ w := by
        have hpos : (0 : ℤ) < 2 ^ w := by positivity
        have hv := Int.mul_ediv_add_emod v (2 ^ w)
        have hm := Int.mul_ediv_add_emod m (2 ^ w)
        have hm0 := Int.emod_nonneg m hpos.ne'
        have hv1 := Int.emod_lt_of_pos v hpos
        rw [show v - m = (v % 2 ^ w - m % 2 ^ w) + (v / 2 ^ w - m / 2 ^ w) * 2 ^ w by
          linarith, Int.add_mul_ediv_right _ _ hpos.ne',
          Int.ediv_eq_zero_of_lt (by omega) (by omega), zero_add]
      rw [field_succ, field_succ, field_succ, hdiv]
      refine ih fun j hj => ?_
      rw [← field_succ, ← field_succ]
      exact h (j + 1) (by omega)

/-- The unit word holds `1` in its own field and `0` in every other. -/
theorem field_unit {w : ℕ} (hw : 0 < w) (j i : ℕ) :
    field w (unit w j) i = if i = j then 1 else 0 := by
  rw [unit_eq]
  induction i generalizing j with
  | zero =>
      rw [field_zero_right]
      cases j with
      | zero =>
          have h1 : (1 : ℤ) < 2 ^ w := one_lt_pow₀ (by norm_num) hw.ne'
          simpa using Int.emod_eq_of_lt zero_le_one h1
      | succ j =>
          rw [if_neg (by omega), show (j + 1) * w = j * w + w by ring, pow_add]
          exact Int.mul_emod_left _ _
  | succ i ih =>
      rw [field_succ]
      cases j with
      | zero =>
          have h1 : (1 : ℤ) < 2 ^ w := one_lt_pow₀ (by norm_num) hw.ne'
          rw [Nat.zero_mul, pow_zero, Int.ediv_eq_zero_of_lt zero_le_one h1, field_zero,
            if_neg (by omega)]
      | succ j =>
          rw [show (j + 1) * w = j * w + w by ring, pow_add,
            Int.mul_ediv_cancel _ (by positivity), ih]
          simp

/-- Adding one to a counter that has room changes that counter only. -/
theorem field_add_unit {w : ℕ} (hw : 0 < w) {v : ℤ} {j : ℕ}
    (h : field w v j + 1 < 2 ^ w) (i : ℕ) :
    field w (v + unit w j) i = field w v i + if i = j then 1 else 0 := by
  rw [field_add, field_unit hw]
  intro k _
  rw [field_unit hw]
  split
  · subst k
    exact h
  · have := field_lt w v k
    omega

/-- Taking one from a counter that is not zero changes that counter only. -/
theorem field_sub_unit {w : ℕ} (hw : 0 < w) {v : ℤ} {j : ℕ}
    (h : 0 < field w v j) (i : ℕ) :
    field w (v - unit w j) i = field w v i - if i = j then 1 else 0 := by
  rw [field_sub, field_unit hw]
  intro k _
  rw [field_unit hw]
  split
  · subst k
    omega
  · exact field_nonneg w v k

/-! ### Words from vectors of counters -/

/-- The word whose first `n` fields are the counters `c 0, …, c (n - 1)`. -/
def pack (w : ℕ) : ℕ → (ℕ → ℤ) → ℤ
  | 0, _ => 0
  | n + 1, c => c 0 + 2 ^ w * pack w n (fun i => c (i + 1))

theorem pack_add (w n : ℕ) (c d : ℕ → ℤ) :
    pack w n (fun i => c i + d i) = pack w n c + pack w n d := by
  induction n generalizing c d with
  | zero => rfl
  | succ n ih =>
      simp only [pack, ih (fun i => c (i + 1)) (fun i => d (i + 1))]
      ring

theorem pack_zero (w n : ℕ) : (pack w n fun _ => 0) = 0 := by
  induction n with
  | zero => rfl
  | succ n ih => rw [pack, ih, mul_zero, add_zero]

/-- The pack of a sum of vectors is the sum of their packs. -/
theorem pack_sum {α : Type*} (w n : ℕ) (l : List α) (c : α → ℕ → ℤ) :
    (pack w n fun i => (l.map fun x => c x i).sum) = (l.map fun x => pack w n (c x)).sum := by
  induction l with
  | nil => exact pack_zero w n
  | cons x l ih =>
      simp only [List.map_cons, List.sum_cons]
      rw [pack_add w n (c x) fun i => (l.map fun y => c y i).sum, ih]

theorem pack_congr {w n : ℕ} {c d : ℕ → ℤ} (h : ∀ i < n, c i = d i) :
    pack w n c = pack w n d := by
  induction n generalizing c d with
  | zero => rfl
  | succ n ih =>
      rw [pack, pack, h 0 (by omega), ih fun i hi => h (i + 1) (by omega)]

theorem pack_lt {w n : ℕ} {c : ℕ → ℤ} (h : ∀ i < n, c i < 2 ^ w) :
    pack w n c < 2 ^ (n * w) := by
  induction n generalizing c with
  | zero => simp [pack]
  | succ n ih =>
      have h0 := h 0 (by omega)
      have hrest : pack w n (fun i => c (i + 1)) + 1 ≤ 2 ^ (n * w) :=
        ih fun i hi => h (i + 1) (by omega)
      have hpos : (0 : ℤ) < 2 ^ w := by positivity
      rw [pack, show (n + 1) * w = w + n * w by ring, pow_add]
      calc c 0 + 2 ^ w * pack w n (fun i => c (i + 1))
          < 2 ^ w + 2 ^ w * pack w n (fun i => c (i + 1)) := by linarith
        _ = 2 ^ w * (pack w n (fun i => c (i + 1)) + 1) := by ring
        _ ≤ 2 ^ w * 2 ^ (n * w) := mul_le_mul_of_nonneg_left hrest hpos.le

/-- `field` reads back what `pack` wrote. -/
theorem field_pack {w n : ℕ} {c : ℕ → ℤ} (h0 : ∀ i < n, 0 ≤ c i)
    (h1 : ∀ i < n, c i < 2 ^ w) {i : ℕ} (hi : i < n) : field w (pack w n c) i = c i := by
  induction n generalizing c i with
  | zero => omega
  | succ n ih =>
      have hc0 := h0 0 (by omega)
      have hc1 := h1 0 (by omega)
      have hpos : (0 : ℤ) < 2 ^ w := by positivity
      cases i with
      | zero =>
          rw [field_zero_right, pack, Int.add_mul_emod_self_left,
            Int.emod_eq_of_lt hc0 hc1]
      | succ i =>
          rw [field_succ, pack, Int.add_mul_ediv_left _ _ hpos.ne',
            Int.ediv_eq_zero_of_lt hc0 hc1, zero_add]
          exact ih (fun k hk => h0 (k + 1) (by omega)) (fun k hk => h1 (k + 1) (by omega))
            (by omega)

/-- The first `n` fields of a word are its remainder by `2 ^ (n * w)`. -/
theorem pack_field_eq_emod (w n : ℕ) (v : ℤ) : pack w n (field w v) = v % 2 ^ (n * w) := by
  induction n generalizing v with
  | zero => rw [pack, Nat.zero_mul, pow_zero, Int.emod_one]
  | succ n ih =>
      have hshift : pack w n (fun i => field w v (i + 1)) = v / 2 ^ w % 2 ^ (n * w) := by
        rw [pack_congr fun i _ => field_succ w v i]
        exact ih (v / 2 ^ w)
      rw [pack, hshift, field_zero_right, show (n + 1) * w = w + n * w by ring, pow_add,
        Int.emod_def v, Int.emod_def (v / 2 ^ w), Int.emod_def v (2 ^ w * 2 ^ (n * w)),
        ← Int.ediv_ediv_of_nonneg (by positivity)]
      ring

/-- A word in range is the pack of its own fields. -/
theorem pack_field {w n : ℕ} {v : ℤ} (h0 : 0 ≤ v) (h1 : v < 2 ^ (n * w)) :
    pack w n (field w v) = v := by
  rw [pack_field_eq_emod, Int.emod_eq_of_lt h0 h1]

/-- A unit is in range as soon as its field is. -/
theorem unit_lt {w n j : ℕ} (hw : 0 < w) (hj : j < n) : unit w j < 2 ^ (n * w) := by
  rw [unit_eq]
  exact pow_lt_pow_right₀ (by norm_num) (Nat.mul_lt_mul_of_pos_right hj hw)

/-- One counter more by one is one unit more. -/
theorem pack_add_unit {w n j : ℕ} (hw : 0 < w) (hj : j < n) (c : ℕ → ℤ) :
    pack w n (fun i => c i + if i = j then 1 else 0) = pack w n c + unit w j := by
  have hunit : pack w n (fun i => if i = j then 1 else 0) = unit w j := by
    rw [← pack_field (unit_nonneg w j) (unit_lt hw hj)]
    exact pack_congr fun i _ => (field_unit hw j i).symm
  rw [pack_add, hunit]

/-- Adding one to a counter that has room keeps the word in range. -/
theorem add_unit_lt {w n : ℕ} (hw : 0 < w) {v : ℤ} {j : ℕ} (h0 : 0 ≤ v)
    (h1 : v < 2 ^ (n * w)) (hj : j < n) (h : field w v j + 1 < 2 ^ w) :
    v + unit w j < 2 ^ (n * w) := by
  rw [← pack_field h0 h1, ← pack_field (unit_nonneg w j) (unit_lt hw hj), ← pack_add]
  refine pack_lt fun i _ => ?_
  rw [field_unit hw]
  split
  · subst i
    exact h
  · have := field_lt w v i
    omega

/-- A counter that is not zero can be taken from without leaving the range. -/
theorem unit_le_of_field_pos {w : ℕ} {v : ℤ} {j : ℕ} (h0 : 0 ≤ v) (h : 0 < field w v j) :
    unit w j ≤ v := by
  by_contra hlt
  rw [not_le, unit_eq] at hlt
  rw [field_eq, Int.ediv_eq_zero_of_lt h0 hlt] at h
  simp at h

/-- A word put above `n` counters: the low counters stay, the others move up. -/
theorem field_shift_add {w n : ℕ} {u v : ℤ} (h0 : 0 ≤ u) (h1 : u < 2 ^ (n * w)) (i : ℕ) :
    field w (v <<< (n * w) + u) i = if i < n then field w u i else field w v (i - n) := by
  rw [field_eq, Int.shiftLeft_eq]
  by_cases hi : i < n
  · rw [if_pos hi, field_eq]
    -- the shifted word is a multiple of `2 ^ w` above counter `i`
    have hpow : (2 : ℤ) ^ (n * w) = 2 ^ (i * w) * (2 ^ w * 2 ^ ((n - i - 1) * w)) := by
      rw [← pow_add, ← pow_add]
      congr 1
      have hn : n = i + 1 + (n - i - 1) := by omega
      calc n * w = (i + 1 + (n - i - 1)) * w := by rw [← hn]
        _ = i * w + (w + (n - i - 1) * w) := by ring
    have hdiv : (v * 2 ^ (n * w) + u) / 2 ^ (i * w) =
        2 ^ w * (2 ^ ((n - i - 1) * w) * v) + u / 2 ^ (i * w) := by
      rw [hpow, show v * (2 ^ (i * w) * (2 ^ w * 2 ^ ((n - i - 1) * w))) + u =
        u + 2 ^ (i * w) * (2 ^ w * (2 ^ ((n - i - 1) * w) * v)) by ring,
        Int.add_mul_ediv_left _ _ (by positivity), add_comm]
    rw [hdiv, Int.mul_add_emod_self_left]
  · rw [if_neg hi, field_eq]
    have hn : i * w = n * w + (i - n) * w := by
      rw [← add_mul]
      congr 1
      omega
    have hdiv : (v * 2 ^ (n * w) + u) / 2 ^ (n * w) = v := by
      rw [add_comm, Int.add_mul_ediv_right _ _ (by positivity), Int.ediv_eq_zero_of_lt h0 h1,
        zero_add]
    rw [hn, pow_add, ← Int.ediv_ediv_of_nonneg (by positivity), hdiv]

end Packed
