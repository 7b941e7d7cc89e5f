import Mathlib.Tactic.IntervalCases
import MahjongAI.Cards
import MahjongAI.Runs

/-!
# The Representation Invariant of the Card Set

`MJCards.InRange` says that a card set represents a multiset: every word is in the range
of its counters and every counter is at most the number of copies in the whole set. The
two operators keep it, `+=` under the condition that the tile's counter has room
(`InRange.addCard`), `-=` always (`InRange.subCard`).

The suits test for room themselves; the dragons, the winds and the flowers do not, and
an addition past the cap is a fifth dragon or, for a flower, a carry that changes other
flowers. `countsKept_of_run` is the invariant over whole runs in which every addition to
an unguarded word has room, `not_countsKept` shows two single additions that break it.
-/

open Packed Runs

namespace MahjongAI

/-- Every tile of the set, colour by colour. -/
def allCards : List MJCard :=
  [0, 1, 2, 3, 4, 5].flatMap fun c => (List.range (fieldNum c)).map fun v : ℕ => ⟨c, v⟩

theorem mem_allCards {card : MJCard} : card ∈ allCards ↔ card.Valid := by
  constructor
  · have h : ∀ c ∈ allCards, c.Valid := by decide
    exact h card
  · rintro ⟨h0, h5, hv0, hv⟩
    obtain ⟨color, value⟩ := card
    simp only at h0 h5 hv0 hv
    obtain ⟨v, rfl⟩ := Int.eq_ofNat_of_zero_le hv0
    simp only [allCards, List.mem_flatMap, List.mem_map, List.mem_range, MJCard.mk.injEq]
    refine ⟨color, ?_, v, by exact_mod_cast hv, rfl, rfl⟩
    simp only [List.mem_cons, List.not_mem_nil, or_false]
    omega

namespace MJCards

/-- The **representation invariant**: the words are in range, and no tile is counted more
often than the whole set holds it. -/
structure InRange (s : MJCards) : Prop where
  get_nonneg : ∀ c, 0 ≤ c → c ≤ 5 → 0 ≤ s.get c
  get_lt : ∀ c, 0 ≤ c → c ≤ 5 → s.get c < 2 ^ (fieldNum c * fieldWidth c)
  countCard_le : ∀ card : MJCard, card.Valid → s.countCard card ≤ fieldCap card.color

/-- The two constructors build representations. -/
theorem inRange_make (full : Bool) : (make full).InRange := by
  have hcolor : ∀ c : ℤ, 0 ≤ c → c ≤ 5 →
      0 ≤ (make full).get c ∧ (make full).get c < 2 ^ (fieldNum c * fieldWidth c) := by
    intro c h0 h5
    interval_cases c <;> cases full <;> decide
  refine ⟨fun c h0 h5 => (hcolor c h0 h5).1, fun c h0 h5 => (hcolor c h0 h5).2, ?_⟩
  intro card hcard
  have hall : ∀ c ∈ allCards, (make full).countCard c ≤ fieldCap c.color := by
    cases full <;> decide
  exact hall card (mem_allCards.mpr hcard)

/-- A tile with room can be added. -/
theorem InRange.addCard {s : MJCards} (h : s.InRange) {card : MJCard} (hcard : card.Valid)
    (hroom : s.countCard card < fieldCap card.color) : (s.addCard card).InRange := by
  have hroom' : field (fieldWidth card.color) (s.get card.color) card.value.toNat + 1 <
      2 ^ fieldWidth card.color := by
    rw [countCard_eq s hcard] at hroom
    have := fieldCap_lt card.color
    omega
  have hidx : card.value.toNat < fieldNum card.color := by
    obtain ⟨-, -, hv0, hv⟩ := hcard
    omega
  have hget := fun c (h0 : 0 ≤ c) (h5 : c ≤ 5) =>
    get_set s hcard.1 hcard.2.1 h0 h5
      (s.get card.color + unit (fieldWidth card.color) card.value.toNat)
  refine ⟨?_, ?_, ?_⟩
  · intro c h0 h5
    rw [addCard_eq_set s hcard hroom, hget c h0 h5]
    split
    · exact add_nonneg (h.get_nonneg card.color hcard.1 hcard.2.1) (unit_nonneg _ _)
    · exact h.get_nonneg c h0 h5
  · intro c h0 h5
    rw [addCard_eq_set s hcard hroom, hget c h0 h5]
    split
    · subst c
      exact add_unit_lt (fieldWidth_pos _) (h.get_nonneg _ h0 h5) (h.get_lt _ h0 h5) hidx
        hroom'
    · exact h.get_lt c h0 h5
  · intro d hd
    rw [countCard_addCard s hcard hd hroom]
    have := h.countCard_le d hd
    split
    · subst d
      omega
    · omega

/-- Removal never leaves the invariant. -/
theorem InRange.subCard {s : MJCards} (h : s.InRange) {card : MJCard}
    (hcard : card.Valid) : (s.subCard card).InRange := by
  by_cases hpos : 0 < s.countCard card
  · have hpos' := hpos
    rw [countCard_eq s hcard] at hpos'
    have hle : unit (fieldWidth card.color) card.value.toNat ≤ s.get card.color :=
      unit_le_of_field_pos (h.get_nonneg _ hcard.1 hcard.2.1) hpos'
    have hunit := unit_nonneg (fieldWidth card.color) card.value.toNat
    have hget := fun c (h0 : 0 ≤ c) (h5 : c ≤ 5) =>
      get_set s hcard.1 hcard.2.1 h0 h5
        (s.get card.color - unit (fieldWidth card.color) card.value.toNat)
    refine ⟨?_, ?_, ?_⟩
    · intro c h0 h5
      rw [subCard_eq_set s hcard hpos, hget c h0 h5]
      split
      · omega
      · exact h.get_nonneg c h0 h5
    · intro c h0 h5
      rw [subCard_eq_set s hcard hpos, hget c h0 h5]
      have := h.get_lt c h0 h5
      split
      · subst c
        omega
      · exact this
    · intro d hd
      rw [countCard_subCard s hcard hd]
      have := h.countCard_le d hd
      split <;> omega
  · have hempty : s.countCard card = 0 := by
      have := countCard_nonneg s hcard
      omega
    rwa [subCard_of_empty s hcard hempty]

end MJCards

/-! ### Runs of single-card operations -/

/-- A single-card operation on a card set. -/
inductive CardOp
  | add (card : MJCard)
  | sub (card : MJCard)

namespace CardOp

/-- The card an operation names. -/
def card : CardOp → MJCard
  | add c => c
  | sub c => c

/-- The operation as the source's operator. -/
def apply (s : MJCards) : CardOp → MJCards
  | add c => s.addCard c
  | sub c => s.subCard c

/-- The operation has room: an addition to a word whose `+=` makes no test finds the
counter of its card below the number of copies in the whole set. -/
def HasRoom (s : MJCards) : CardOp → Prop
  | add c => c.color ≤ 2 ∨ s.countCard c < fieldCap c.color
  | sub _ => True

end CardOp

/-- Every suited and honour tile is counted `0` to `4` times, every flower at most once. -/
def CountsKept (s : MJCards) : Prop :=
  ∀ card : MJCard, card.Valid → 0 ≤ s.countCard card ∧ s.countCard card ≤ fieldCap card.color

/-- An operation leaves the count of every card it does not name. -/
def OthersKept (s : MJCards) (op : CardOp) : Prop :=
  ∀ d : MJCard, d.Valid → d ≠ op.card → (op.apply s).countCard d = s.countCard d

/-- One step of a program that works on a card set with valid cards. -/
def CardStep (s : MJCards) (op : CardOp) (t : MJCards) : Prop :=
  op.card.Valid ∧ t = op.apply s

/-- An addition with room either moves a counter below its cap or is refused by a full
suit. -/
theorem addCard_of_hasRoom {s : MJCards} {c : MJCard} (hcard : c.Valid)
    (hroom : (CardOp.add c).HasRoom s) :
    s.countCard c < fieldCap c.color ∨ s.addCard c = s := by
  by_cases hfull : s.countCard c < fieldCap c.color
  · exact Or.inl hfull
  · have hsuit : c.color ≤ 2 := hroom.resolve_right hfull
    have hcap : fieldCap c.color = 4 := by
      rw [fieldCap]
      rw [if_neg (by omega)]
    exact Or.inr (MJCards.addCard_of_full s hcard hsuit (by omega))

/-- With room, one operation keeps the representation. -/
theorem inRange_apply {s : MJCards} (h : s.InRange) {op : CardOp} (hcard : op.card.Valid)
    (hroom : op.HasRoom s) : (op.apply s).InRange := by
  cases op with
  | add c =>
      rcases addCard_of_hasRoom (c := c) hcard hroom with hfull | hsame
      · exact h.addCard hcard hfull
      · rw [CardOp.apply, hsame]
        exact h
  | sub c => exact h.subCard hcard

/-- With room, one operation changes no other count. -/
theorem othersKept_of_hasRoom {s : MJCards} {op : CardOp} (hcard : op.card.Valid)
    (hroom : op.HasRoom s) : OthersKept s op := by
  intro d hd hne
  cases op with
  | add c =>
      have hne : d ≠ c := hne
      rcases addCard_of_hasRoom (c := c) hcard hroom with hfull | hsame
      · have hadd := MJCards.countCard_addCard s (c := c) hcard hd hfull
        rwa [if_neg hne, add_zero] at hadd
      · rw [CardOp.apply, hsame]
  | sub c =>
      have hne : d ≠ c := hne
      have hsub := MJCards.countCard_subCard s (c := c) hcard hd
      rwa [if_neg (fun h => hne h.1), sub_zero] at hsub

/-- The invariant over runs whose additions have room. -/
theorem inRange_of_run {full : Bool} {ops : List CardOp} {s : MJCards}
    (h : Run (fun s op t => CardStep s op t ∧ op.HasRoom s) (MJCards.make full) ops s) :
    s.InRange := by
  refine h.invariant ?_ (MJCards.inRange_make full)
  rintro s op t hs ⟨⟨hcard, rfl⟩, hroom⟩
  exact inRange_apply hs hcard hroom

/-- **Counts over runs.** In a run from an empty or a full set in which every addition to
a dragon, wind or flower finds room, every count stays in range, and every operation that
may come next leaves the other counts alone. -/
theorem countsKept_of_run {full : Bool} {ops : List CardOp} {s : MJCards}
    (h : Run (fun s op t => CardStep s op t ∧ op.HasRoom s) (MJCards.make full) ops s) :
    CountsKept s ∧ ∀ op : CardOp, op.card.Valid → op.HasRoom s → OthersKept s op := by
  refine ⟨fun card hcard => ⟨MJCards.countCard_nonneg s hcard, ?_⟩, ?_⟩
  · exact (inRange_of_run h).countCard_le card hcard
  · intro op hcard hroom
    exact othersKept_of_hasRoom hcard hroom

/-- A run that adds a dragon and a wind to the empty set. -/
theorem countsKept_of_run_example :
    CountsKept ((((MJCards.make false).addCard ⟨3, 0⟩).addCard ⟨4, 1⟩)) ∧
      ∀ op : CardOp, op.card.Valid →
        op.HasRoom (((MJCards.make false).addCard ⟨3, 0⟩).addCard ⟨4, 1⟩) →
        OthersKept (((MJCards.make false).addCard ⟨3, 0⟩).addCard ⟨4, 1⟩) op := by
  have hrun : Run (fun s op t => CardStep s op t ∧ op.HasRoom s) (MJCards.make false)
      ([] ++ [.add ⟨3, 0⟩] ++ [.add ⟨4, 1⟩]) (((MJCards.make false).addCard ⟨3, 0⟩).addCard ⟨4, 1⟩) :=
    ((Run.nil _).snoc ⟨⟨by decide, rfl⟩, Or.inr (by decide)⟩).snoc
      ⟨⟨by decide, rfl⟩, Or.inr (by decide)⟩
  exact countsKept_of_run hrun

/-- Without the condition this fails: one more dragon in the full set is counted
five times, and one more flower there takes another flower out. -/
theorem not_countsKept :
    ¬ ∀ (full : Bool) (ops : List CardOp) (s : MJCards),
      Run CardStep (MJCards.make full) ops s →
        CountsKept s ∧ ∀ op : CardOp, op.card.Valid → OthersKept s op := by
  intro h
  have hdragon : Run CardStep (MJCards.make true) ([] ++ [.add ⟨3, 0⟩])
      ((MJCards.make true).addCard ⟨3, 0⟩) :=
    (Run.nil _).snoc ⟨by decide, rfl⟩
  have hcount := ((h _ _ _ hdragon).1 ⟨3, 0⟩ (by decide)).2
  exact absurd hcount (by decide)

end MahjongAI
