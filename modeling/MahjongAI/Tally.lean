import Mathlib.Algebra.Order.Group.Int
import Mathlib.Algebra.Order.Group.Unbundled.Int
import Mathlib.Algebra.Ring.Int.Defs
import Mathlib.Data.List.Count
import Mathlib.Data.List.Flatten

/-!
# Cumulative Search in a Tally

A tally is a list of items with the number of copies of each. It stands for the list that
repeats every item as often as it is counted, and the usual way to read one element of that
list without writing it out is a cumulative search: add up the counts from the front, and
stop at the item at which the running total exceeds the index.

## Main results

* `search_eq_getElem?`: the cumulative search reads the list that the tally stands for.
* `length_expand`: that list is as long as the counts add up.
* `count_expand`: it holds each item as often as the tally counts it.
-/

namespace Tally

variable {α : Type*}

/-- The list that a tally stands for. -/
def expand (l : List (α × ℤ)) : List α :=
  l.flatMap fun e => List.replicate e.2.toNat e.1

/-- The **cumulative search** for the index `idx`, from the running total `count`. -/
def search (idx : ℤ) : List (α × ℤ) → ℤ → Option α
  | [], _ => none
  | (a, n) :: l, count => if count + n > idx then some a else search idx l (count + n)

@[simp] theorem expand_cons (e : α × ℤ) (l : List (α × ℤ)) :
    expand (e :: l) = List.replicate e.2.toNat e.1 ++ expand l :=
  rfl

/-- **The search reads the list.** -/
theorem search_eq_getElem? {l : List (α × ℤ)} (h : ∀ e ∈ l, 0 ≤ e.2) {idx count : ℤ}
    (hidx : count ≤ idx) : search idx l count = (expand l)[(idx - count).toNat]? := by
  induction l generalizing count with
  | nil => rfl
  | cons e l ih =>
      obtain ⟨a, n⟩ := e
      have hn : 0 ≤ n := h (a, n) List.mem_cons_self
      rw [search, expand_cons, List.getElem?_append, List.length_replicate]
      by_cases hfound : count + n > idx
      · rw [if_pos hfound, if_pos (by simp only; omega), List.getElem?_replicate,
          if_pos (by simp only; omega)]
      · rw [if_neg hfound, if_neg (by simp only; omega),
          ih (fun e he => h e (List.mem_cons_of_mem _ he)) (by omega)]
        congr 1
        simp only
        omega

/-- The length of the list is the sum of the counts. -/
theorem length_expand {l : List (α × ℤ)} (h : ∀ e ∈ l, 0 ≤ e.2) :
    ((expand l).length : ℤ) = (l.map Prod.snd).sum := by
  induction l with
  | nil => rfl
  | cons e l ih =>
      have he := h e List.mem_cons_self
      rw [expand_cons, List.length_append, List.length_replicate, List.map_cons, List.sum_cons,
        Int.natCast_add, ih fun e he => h e (List.mem_cons_of_mem _ he)]
      omega

/-- **The list holds each item as often as it is counted**, when the tally counts each of
the items `l` once, by the function `f`. -/
theorem count_expand [DecidableEq α] (f : α → ℤ) {l : List α} (hnodup : l.Nodup) (a : α) :
    (expand (l.map fun b => (b, f b))).count a = if a ∈ l then (f a).toNat else 0 := by
  induction l with
  | nil => rfl
  | cons b l ih =>
      obtain ⟨hb, hnodup⟩ := List.nodup_cons.mp hnodup
      rw [List.map_cons, expand_cons, List.count_append, List.count_replicate, ih hnodup]
      by_cases hab : b = a
      · subst hab
        simp [hb]
      · have hmem : a ∈ b :: l ↔ a ∈ l := by simp [Ne.symm hab]
        simp [hab, hmem]

end Tally
