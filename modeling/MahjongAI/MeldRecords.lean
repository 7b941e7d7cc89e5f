import MahjongAI.BitSets
import MahjongAI.Conservation
import MahjongAI.Deal

/-!
# The Meld Records

What is melded is kept in four words: `eat` holds a 3-bit counter for each of the 21 runs,
`pon`, `gon` and `anGon` a bit for each kind. The `success` handler adds a unit to the first,
puts bits into the others, and takes a bit out of `pon` by a plain subtraction when a triplet
is upgraded to a kong. Nothing in the handler guards a counter or a bit; that they are exact
follows from the whole history of claims and from the four copies of each kind.

## Main results

* `MeldWords.Recorded.record`: one more meld that follows the rules keeps the records exact.
* `meldsExact_of_run`: so they are after every event of a round that follows the rules, and
  `Player::Count` is the number of concealed tiles and three for each meld.
-/

open Packed BitSets Runs

namespace MahjongAI

/-! ### The places in the records -/

/-- The bit of a kind in the masks: first the suits, then the dragons, then the winds. -/
def meldBit (x : Kind) : ℕ :=
  if x.val < 27 then x.val else if x.val < 31 then x.val + 3 else x.val - 4

/-- The number of the run that starts at a kind: seven runs in each suit. -/
def runIndex (x : Kind) : ℕ :=
  7 * (x.val / 9) + x.val % 9

theorem meldBit_lt (x : Kind) : meldBit x < 34 := by
  have := x.isLt
  rw [meldBit]
  split_ifs <;> omega

theorem meldBit_injective : Function.Injective meldBit := by
  intro x y h
  have := x.isLt
  have := y.isLt
  rw [meldBit, meldBit] at h
  refine Fin.ext ?_
  split_ifs at h <;> omega

theorem runIndex_lt {x : Kind} (h : RunStart x) : runIndex x < 21 := by
  obtain ⟨hsuit, hrank⟩ := h
  rw [runIndex]
  omega

/-- `CardTo34` is the bit of the kind. -/
theorem cardTo34_cardOf : ∀ x : Kind, cardTo34 (cardOf x) = BitVec.twoPow 64 (meldBit x) := by
  decide +kernel

/-- `CardTo63` is the unit of the run. -/
theorem cardTo63_cardOf : ∀ x : Kind, RunStart x →
    cardTo63 (cardOf x) = BitVec.twoPow 64 (runIndex x * 3) := by
  decide +kernel

/-! ### Melds -/

/-- What a claim or a kong adds to the melds: a run by its lowest tile, a triplet, a kong of
a claimed tile, a concealed kong; or the fourth tile of a melded triplet. -/
inductive Meld
  | run (x : Kind) (h : RunStart x)
  | triplet (x : Kind)
  | kong (x : Kind)
  | upgrade (x : Kind)
  | concealed (x : Kind)
  deriving DecidableEq

namespace Meld

/-- The tiles of a meld; an upgrade is one tile more. -/
def tiles : Meld → List Kind
  | .run x _ => [x, x + 1, x + 2]
  | .triplet x => List.replicate 3 x
  | .kong x => List.replicate 4 x
  | .upgrade x => [x]
  | .concealed x => List.replicate 4 x

/-- A meld that was not there before in a smaller form. -/
def isNew : Meld → Bool
  | .upgrade _ => false
  | _ => true

/-- The run number `i`. -/
def isRun (i : ℕ) : Meld → Bool
  | .run x _ => runIndex x = i
  | _ => false

/-- The commands that `success` records. -/
def isRecorded (command : ℤ) : Bool :=
  command = CommandType.eat.code ∨ command = CommandType.pon.code ∨
    command = CommandType.gon.code ∨ command = CommandType.ponGon.code ∨
      command = CommandType.anGon.code

/-- The meld that a command number and its tile text announce. The text of a run names the
lowest tile first, then the claimed one. -/
def read [Tokenizer] (command : ℤ) (tile : List Char) : Option Meld :=
  if command = CommandType.eat.code then
    match tokens tile with
    | first :: _ :: _ =>
        (tileKind first).bind fun x => if h : RunStart x then some (.run x h) else none
    | _ => none
  else if command = CommandType.pon.code then (tileKind tile).map .triplet
  else if command = CommandType.gon.code then (tileKind tile).map .kong
  else if command = CommandType.ponGon.code then (tileKind tile).map .upgrade
  else if command = CommandType.anGon.code then (tileKind tile).map .concealed
  else none

end Meld

/-- The rules for the melds of a round: no kind is used more often than it exists, and only
a triplet that is there is upgraded. -/
structure MeldRules (ms : List Meld) : Prop where
  copies : ∀ x, (ms.flatMap Meld.tiles).count x ≤ 4
  upgrades : Along (fun before m => ∀ x, m = .upgrade x → .triplet x ∈ before) ms

/-! ### The words -/

/-- The four words of `Player`. -/
structure MeldWords where
  eat : BitVec 64
  pon : BitVec 64
  gon : BitVec 64
  anGon : BitVec 64
  deriving DecidableEq

namespace MeldWords

/-- What `success` does to the words. -/
def record (p : MeldWords) : Meld → MeldWords
  | .run x _ => { p with eat := p.eat + cardTo63 (cardOf x) }
  | .triplet x => { p with pon := p.pon ||| cardTo34 (cardOf x) }
  | .kong x => { p with gon := p.gon ||| cardTo34 (cardOf x) }
  | .upgrade x =>
      { p with pon := p.pon - cardTo34 (cardOf x), gon := p.gon ||| cardTo34 (cardOf x) }
  | .concealed x => { p with anGon := p.anGon ||| cardTo34 (cardOf x) }

/-- The words hold the melds: a counter for each run, a bit for each triplet that is not
upgraded, for each kong, and for each concealed kong. -/
structure Recorded (p : MeldWords) (ms : List Meld) : Prop where
  eat : (p.eat.toNat : ℤ) = pack 3 21 fun i => ms.countP (Meld.isRun i)
  pon : BitSet meldBit p.pon fun x => .triplet x ∈ ms ∧ .upgrade x ∉ ms
  gon : BitSet meldBit p.gon fun x => .kong x ∈ ms ∨ .upgrade x ∈ ms
  anGon : BitSet meldBit p.anGon fun x => .concealed x ∈ ms

end MeldWords

/-- The meld words of the player. -/
def Irb00.meldWords (p : Irb00) : MeldWords :=
  ⟨p.eat, p.pon, p.gon, p.anGon⟩

/-- `Player::Count`. -/
def Irb00.count (p : Irb00) : ℤ :=
  p.Hand.count +
    ((List.range 21).map fun i => (p.eat.sshiftRight (i * 3) &&& 7).toInt * 3).sum +
    ((List.range 34).map fun i => (p.pon.sshiftRight i &&& 1).toInt * 3).sum +
    ((List.range 34).map fun i => (p.gon.sshiftRight i &&& 1).toInt * 3).sum +
    ((List.range 34).map fun i => (p.anGon.sshiftRight i &&& 1).toInt * 3).sum

/-! ### What the rules give -/

/-- The tiles of one kind in its triplets and kongs. -/
theorem copies_le (ms : List Meld) (x : Kind) :
    3 * ms.count (.triplet x) + 4 * ms.count (.kong x) + ms.count (.upgrade x) +
      4 * ms.count (.concealed x) ≤ (ms.flatMap Meld.tiles).count x := by
  induction ms with
  | nil => rfl
  | cons m ms ih =>
      rw [List.flatMap_cons, List.count_append]
      simp only [List.count_cons]
      cases m with
      | run y h =>
          simp only [reduceCtorEq, beq_iff_eq, if_false]
          omega
      | triplet y =>
          simp only [reduceCtorEq, beq_iff_eq, if_false, Meld.triplet.injEq, Meld.tiles,
            List.count_replicate]
          split <;> omega
      | kong y =>
          simp only [reduceCtorEq, beq_iff_eq, if_false, Meld.kong.injEq, Meld.tiles,
            List.count_replicate]
          split <;> omega
      | upgrade y =>
          simp only [reduceCtorEq, beq_iff_eq, if_false, Meld.upgrade.injEq, Meld.tiles,
            List.count_singleton]
          split <;> omega
      | concealed y =>
          simp only [reduceCtorEq, beq_iff_eq, if_false, Meld.concealed.injEq, Meld.tiles,
            List.count_replicate]
          split <;> omega

/-- Every run holds its lowest tile. -/
theorem countP_isRun_le (ms : List Meld) {x : Kind} (hx : RunStart x) :
    ms.countP (Meld.isRun (runIndex x)) ≤ (ms.flatMap Meld.tiles).count x := by
  have hone : ∀ m : Meld, m.isRun (runIndex x) = true → 1 ≤ m.tiles.count x := by
    intro m hm
    cases m with
    | run y hy =>
        have hxy : y = x := by
          obtain ⟨hysuit, hyrank⟩ := hy
          obtain ⟨hxsuit, hxrank⟩ := hx
          have hindex : runIndex y = runIndex x := by simpa [Meld.isRun] using hm
          rw [runIndex, runIndex] at hindex
          exact Fin.ext (by omega)
        subst hxy
        exact List.one_le_count_iff.mpr List.mem_cons_self
    | triplet y => simp [Meld.isRun] at hm
    | kong y => simp [Meld.isRun] at hm
    | upgrade y => simp [Meld.isRun] at hm
    | concealed y => simp [Meld.isRun] at hm
  induction ms with
  | nil => rfl
  | cons m ms ih =>
      rw [List.flatMap_cons, List.count_append, List.countP_cons]
      split
      · have := hone m (by assumption)
        omega
      · omega

/-- The part of a history that follows the rules follows them. -/
theorem MeldRules.init {ms : List Meld} {m : Meld} (h : MeldRules (ms ++ [m])) :
    MeldRules ms := by
  refine ⟨fun x => ?_, (along_concat.mp h.upgrades).1⟩
  have := h.copies x
  rw [List.flatMap_append, List.count_append] at this
  omega

/-- What the rules say of one kind. -/
theorem MeldRules.counts {ms : List Meld} (h : MeldRules ms) (x : Kind) :
    3 * ms.count (.triplet x) + 4 * ms.count (.kong x) + ms.count (.upgrade x) +
      4 * ms.count (.concealed x) ≤ 4 ∧
      (0 < ms.count (.upgrade x) → 0 < ms.count (.triplet x)) := by
  refine ⟨(copies_le ms x).trans (h.copies x), fun hu => ?_⟩
  obtain ⟨before, after, hms, hbefore⟩ :=
    h.upgrades.exists_before (List.count_pos_iff.mp hu)
  refine List.count_pos_iff.mpr ?_
  rw [hms]
  exact List.mem_append_left _ (hbefore x rfl)

/-- No run is claimed more than four times. -/
theorem MeldRules.countP_isRun_le {ms : List Meld} (h : MeldRules ms) {i : ℕ} (hi : i < 21) :
    ms.countP (Meld.isRun i) ≤ 4 := by
  have hex : ∀ i < 21, ∃ x : Kind, RunStart x ∧ runIndex x = i := by decide +kernel
  obtain ⟨x, hx, rfl⟩ := hex i hi
  exact (MahjongAI.countP_isRun_le ms hx).trans (h.copies x)

/-- A kind whose triplet is claimed has no upgrade yet: it would have had a triplet, too. -/
theorem MeldRules.of_triplet {ms : List Meld} {x : Kind} (h : MeldRules (ms ++ [.triplet x])) :
    .upgrade x ∉ ms := by
  intro hu
  have htriplet := (h.init.counts x).2 (List.count_pos_iff.mpr hu)
  have hcounts := h.counts x
  rw [List.count_append, List.count_singleton_self] at hcounts
  omega

/-- A kind that is upgraded has its triplet, and is upgraded for the first time. -/
theorem MeldRules.of_upgrade {ms : List Meld} {x : Kind} (h : MeldRules (ms ++ [.upgrade x])) :
    .triplet x ∈ ms ∧ .upgrade x ∉ ms := by
  have htriplet : .triplet x ∈ ms := (along_concat.mp h.upgrades).2 x rfl
  refine ⟨htriplet, fun hu => ?_⟩
  have hpos := List.count_pos_iff.mpr hu
  have hpos' := List.count_pos_iff.mpr htriplet
  have hcounts := h.counts x
  simp only [List.count_append, List.count_singleton_self] at hcounts
  omega

/-! ### One more meld -/

/-- A counter of the runs moves by one. -/
theorem toNat_add_cardTo63 {v : BitVec 64} {c : ℕ → ℕ} {x : Kind} (hx : RunStart x)
    (hv : (v.toNat : ℤ) = pack 3 21 fun i => c i)
    (hroom : ∀ i < 21, c i + (if i = runIndex x then 1 else 0) < 8) :
    ((v + cardTo63 (cardOf x)).toNat : ℤ) =
      pack 3 21 fun i => ((c i + if i = runIndex x then 1 else 0 : ℕ) : ℤ) := by
  have hindex := runIndex_lt hx
  have hpack : pack 3 21 (fun i => ((c i + if i = runIndex x then 1 else 0 : ℕ) : ℤ)) =
      v.toNat + 2 ^ (runIndex x * 3) := by
    rw [hv, ← unit_eq, ← pack_add_unit (by norm_num) hindex]
    refine pack_congr fun i _ => ?_
    push_cast
    rfl
  have hlt : pack 3 21 (fun i => ((c i + if i = runIndex x then 1 else 0 : ℕ) : ℤ)) <
      2 ^ (21 * 3) := by
    refine pack_lt fun i hi => ?_
    have := hroom i hi
    exact_mod_cast this
  have hpow : 2 ^ (runIndex x * 3) < 2 ^ 64 :=
    Nat.pow_lt_pow_right (by norm_num) (by omega)
  have hnat : v.toNat + 2 ^ (runIndex x * 3) < 2 ^ 64 := by
    rw [hpack] at hlt
    have hle : (2 : ℤ) ^ (21 * 3) ≤ 2 ^ 64 := by norm_num
    exact_mod_cast hlt.trans_le hle
  rw [hpack, cardTo63_cardOf x hx, BitVec.toNat_add, BitVec.toNat_twoPow,
    Nat.mod_eq_of_lt hpow, Nat.mod_eq_of_lt hnat]
  push_cast
  rfl

namespace MeldWords

theorem recorded_nil : (⟨0, 0, 0, 0⟩ : MeldWords).Recorded [] where
  eat := by decide
  pon := (bitSet_zero meldBit).congr fun x => by simp
  gon := (bitSet_zero meldBit).congr fun x => by simp
  anGon := (bitSet_zero meldBit).congr fun x => by simp

/-- A meld that is no run leaves the counters alone. -/
theorem Recorded.eat_concat {p : MeldWords} {ms : List Meld} {m : Meld} (h : p.Recorded ms)
    (hm : ∀ i, m.isRun i = false) :
    (p.eat.toNat : ℤ) = pack 3 21 fun i => (ms ++ [m]).countP (Meld.isRun i) := by
  rw [h.eat]
  refine pack_congr fun i _ => ?_
  rw [List.countP_append, List.countP_singleton, hm i]
  simp

/-- **One more meld** that follows the rules keeps the records exact. -/
theorem Recorded.record {p : MeldWords} {ms : List Meld} {m : Meld} (h : p.Recorded ms)
    (hrules : MeldRules (ms ++ [m])) : (p.record m).Recorded (ms ++ [m]) := by
  have hbit : ∀ x, meldBit x < 64 := fun x => by
    have := meldBit_lt x
    omega
  cases m with
  | run x hx =>
      have hconcat : ∀ i, (ms ++ [Meld.run x hx]).countP (Meld.isRun i) =
          ms.countP (Meld.isRun i) + if i = runIndex x then 1 else 0 := by
        intro i
        rw [List.countP_append, List.countP_singleton]
        simp only [Meld.isRun, decide_eq_true_eq, @eq_comm ℕ i]
      refine ⟨?_, ?_, ?_, ?_⟩
      · simp only [hconcat]
        refine toNat_add_cardTo63 hx h.eat fun i hi => ?_
        have := hrules.countP_isRun_le hi
        rw [hconcat] at this
        omega
      · exact h.pon.congr fun y => by simp
      · exact h.gon.congr fun y => by simp
      · exact h.anGon.congr fun y => by simp
  | triplet x =>
      have hnot := hrules.of_triplet
      refine ⟨?_, ?_, ?_, ?_⟩
      · exact h.eat_concat fun _ => rfl
      · -- the new triplet is not upgraded, and no other bit changes
        rw [MeldWords.record, cardTo34_cardOf]
        refine (h.pon.or (hbit x)).congr fun y => ?_
        by_cases hy : y = x
        · subst hy
          simp [hnot]
        · simp [hy]
      · exact h.gon.congr fun y => by simp
      · exact h.anGon.congr fun y => by simp
  | kong x =>
      refine ⟨?_, ?_, ?_, ?_⟩
      · exact h.eat_concat fun _ => rfl
      · exact h.pon.congr fun y => by simp
      · rw [MeldWords.record, cardTo34_cardOf]
        refine (h.gon.or (hbit x)).congr fun y => ?_
        simp [or_right_comm]
      · exact h.anGon.congr fun y => by simp
  | upgrade x =>
      refine ⟨?_, ?_, ?_, ?_⟩
      · exact h.eat_concat fun _ => rfl
      · -- the bit is set, so the subtraction does not borrow
        rw [MeldWords.record, cardTo34_cardOf]
        refine (h.pon.sub meldBit_injective hrules.of_upgrade).congr fun y => ?_
        simp [and_assoc]
      · rw [MeldWords.record, cardTo34_cardOf]
        refine (h.gon.or (hbit x)).congr fun y => ?_
        simp [or_assoc]
      · exact h.anGon.congr fun y => by simp
  | concealed x =>
      refine ⟨?_, ?_, ?_, ?_⟩
      · exact h.eat_concat fun _ => rfl
      · exact h.pon.congr fun y => by simp
      · exact h.gon.congr fun y => by simp
      · rw [MeldWords.record, cardTo34_cardOf]
        refine (h.anGon.or (hbit x)).congr fun y => ?_
        simp

end MeldWords

/-! ### Reading the records -/

/-- The records of a player are exact. -/
structure MeldsExact (p : Irb00) (ms : List Meld) : Prop where
  eat : ∀ i < 21, (p.eat.sshiftRight (i * 3) &&& 7).toInt = ms.countP (Meld.isRun i)
  pon : BitSet meldBit p.pon fun x => .triplet x ∈ ms ∧ .upgrade x ∉ ms
  gon : BitSet meldBit p.gon fun x => .kong x ∈ ms ∨ .upgrade x ∈ ms
  anGon : BitSet meldBit p.anGon fun x => .concealed x ∈ ms
  disjoint : p.pon &&& p.gon = 0 ∧ p.pon &&& p.anGon = 0 ∧ p.gon &&& p.anGon = 0
  nonneg : 0 ≤ p.eat.toInt ∧ 0 ≤ p.pon.toInt ∧ 0 ≤ p.gon.toInt ∧ 0 ≤ p.anGon.toInt
  count : p.count = p.Hand.count + 3 * ms.countP Meld.isNew

/-- The runs, triplets and kongs together. -/
theorem sum_melds (ms : List Meld) :
    ∑ i ∈ Finset.range 21, ms.countP (Meld.isRun i) +
      ∑ x, (ms.count (.triplet x) + ms.count (.kong x) + ms.count (.concealed x)) =
      ms.countP Meld.isNew := by
  -- one meld is one of the 21 runs, or a triplet or kong of one kind, or an upgrade
  have hone : ∀ m : Meld, ∑ i ∈ Finset.range 21, (if m.isRun i = true then 1 else 0) +
      ∑ x, ((if m = .triplet x then 1 else 0) + (if m = .kong x then 1 else 0) +
        if m = .concealed x then 1 else 0) = if m.isNew = true then 1 else 0 := by
    intro m
    cases m with
    | run x hx =>
        have hindex := runIndex_lt hx
        simp [Meld.isRun, Meld.isNew, hindex]
    | triplet x => simp [Meld.isRun, Meld.isNew]
    | kong x => simp [Meld.isRun, Meld.isNew]
    | upgrade x => simp [Meld.isRun, Meld.isNew]
    | concealed x => simp [Meld.isRun, Meld.isNew]
  induction ms with
  | nil => simp
  | cons m ms ih =>
      have hm := hone m
      simp only [List.countP_cons, List.count_cons, beq_iff_eq, Finset.sum_add_distrib]
        at hm ih ⊢
      omega

/-- The bits of triplets and kongs, and of concealed kongs, count them. -/
theorem MeldRules.card_bits {ms : List Meld} (h : MeldRules ms) :
    (Finset.univ.filter fun x => Meld.triplet x ∈ ms ∧ .upgrade x ∉ ms).card +
      (Finset.univ.filter fun x => Meld.kong x ∈ ms ∨ .upgrade x ∈ ms).card +
      (Finset.univ.filter fun x => Meld.concealed x ∈ ms).card =
      ∑ x, (ms.count (.triplet x) + ms.count (.kong x) + ms.count (.concealed x)) := by
  rw [Finset.card_filter, Finset.card_filter, Finset.card_filter, ← Finset.sum_add_distrib,
    ← Finset.sum_add_distrib]
  refine Finset.sum_congr rfl fun x _ => ?_
  have hx := h.counts x
  simp only [← List.count_pos_iff]
  split_ifs <;> omega

namespace MeldWords

/-- The run counters of exact words, and their sign. -/
theorem Recorded.eat_spec {p : MeldWords} {ms : List Meld} (h : p.Recorded ms)
    (hrules : MeldRules ms) : p.eat.msb = false ∧
      ∀ i < 21, (p.eat.sshiftRight (i * 3) &&& 7).toInt = ms.countP (Meld.isRun i) := by
  have hcounter : ∀ i < 21, ((ms.countP (Meld.isRun i) : ℕ) : ℤ) < 2 ^ 3 := by
    intro i hi
    have := hrules.countP_isRun_le hi
    norm_num
    omega
  have hlt : (p.eat.toNat : ℤ) < 2 ^ (21 * 3) := by
    rw [h.eat]
    exact pack_lt hcounter
  have hmsb : p.eat.msb = false := by
    rw [BitVec.msb_eq_false_iff_two_mul_lt]
    norm_num at hlt ⊢
    omega
  refine ⟨hmsb, fun i hi => ?_⟩
  have hread := toInt_sshiftRight_and hmsb (i * 3) (m := 3) (by norm_num)
  calc (p.eat.sshiftRight (i * 3) &&& 7).toInt
      = ((p.eat.toNat / 2 ^ (i * 3) % 2 ^ 3 : ℕ) : ℤ) := hread
    _ = field 3 p.eat.toNat i := by
        rw [field_eq]
        push_cast
        rfl
    _ = ms.countP (Meld.isRun i) := by
        rw [h.eat, field_pack (fun _ _ => Int.natCast_nonneg _) hcounter hi]

end MeldWords

/-- **Exact words are exact records.** -/
theorem meldsExact_of_recorded {p : Irb00} {ms : List Meld} (h : p.meldWords.Recorded ms)
    (hrules : MeldRules ms) : MeldsExact p ms := by
  obtain ⟨heatMsb, heat⟩ := h.eat_spec hrules
  simp only [Irb00.meldWords] at heat
  have hcounts := fun x => hrules.counts x
  have hsign : ∀ x, meldBit x + 1 < 64 := fun x => by
    have := meldBit_lt x
    omega
  refine ⟨heat, h.pon, h.gon, h.anGon, ⟨?_, ?_, ?_⟩, ⟨?_, ?_, ?_, ?_⟩, ?_⟩
  · refine h.pon.and_eq_zero meldBit_injective h.gon fun x hp hg => ?_
    have hx := hcounts x
    simp only [← List.count_pos_iff] at hp hg
    omega
  · refine h.pon.and_eq_zero meldBit_injective h.anGon fun x hp hg => ?_
    have hx := hcounts x
    simp only [← List.count_pos_iff] at hp hg
    omega
  · refine h.gon.and_eq_zero meldBit_injective h.anGon fun x hp hg => ?_
    have hx := hcounts x
    simp only [← List.count_pos_iff] at hp hg
    omega
  · have heq := BitVec.toInt_eq_toNat_of_msb heatMsb
    exact le_of_le_of_eq (Int.natCast_nonneg _) heq.symm
  · exact h.pon.toInt_nonneg hsign
  · exact h.gon.toInt_nonneg hsign
  · exact h.anGon.toInt_nonneg hsign
  · have hruns : ((List.range 21).map fun i => (p.eat.sshiftRight (i * 3) &&& 7).toInt).sum =
        ((∑ i ∈ Finset.range 21, ms.countP (Meld.isRun i) : ℕ) : ℤ) := by
      rw [List.map_congr_left fun i hi => heat i (List.mem_range.mp hi)]
      push_cast
      rfl
    have hpon := h.pon.sum_bits meldBit_injective meldBit_lt (by norm_num)
    have hgon := h.gon.sum_bits meldBit_injective meldBit_lt (by norm_num)
    have hanGon := h.anGon.sum_bits meldBit_injective meldBit_lt (by norm_num)
    have hbits := hrules.card_bits
    have hsum := sum_melds ms
    simp only [Irb00.meldWords] at hpon hgon hanGon
    rw [Irb00.count]
    simp only [List.sum_map_mul_right, hruns, hpon, hgon, hanGon, ← hsum, ← hbits]
    push_cast
    ring

/-! ### The handlers -/

/-- **What the `success` handler does to the records**: it records the meld that the message
announces. -/
theorem success_record [Tokenizer] {b : Bot} {command : ℤ} {tile : List Char} {m : Meld}
    (hm : Meld.read command tile = some m) :
    ∃ b', b.success command tile = some b' ∧
      b'.player.meldWords = b.player.meldWords.record m := by
  rw [Meld.read] at hm
  rw [Bot.success]
  by_cases heat : command = CommandType.eat.code
  · rw [if_pos heat] at hm ⊢
    cases htokens : tokens tile with
    | nil => simp [htokens] at hm
    | cons first rest =>
        cases rest with
        | nil => simp [htokens] at hm
        | cons center rest =>
            simp only [htokens] at hm
            obtain ⟨x, hfirst, hm⟩ := Option.bind_eq_some_iff.mp hm
            by_cases hx : RunStart x
            · rw [dif_pos hx] at hm
              obtain rfl := Option.some.inj hm
              simp only [stringToCard_of_tileKind hfirst]
              exact ⟨_, rfl, rfl⟩
            · rw [dif_neg hx] at hm
              exact absurd hm (by simp)
  rw [if_neg heat] at hm ⊢
  by_cases hpon : command = CommandType.pon.code
  · rw [if_pos hpon] at hm ⊢
    obtain ⟨x, hx, rfl⟩ := Option.map_eq_some_iff.mp hm
    rw [stringToCard_of_tileKind hx]
    exact ⟨_, rfl, rfl⟩
  rw [if_neg hpon] at hm ⊢
  by_cases hgon : command = CommandType.gon.code
  · rw [if_pos hgon] at hm ⊢
    obtain ⟨x, hx, rfl⟩ := Option.map_eq_some_iff.mp hm
    rw [stringToCard_of_tileKind hx]
    exact ⟨_, rfl, rfl⟩
  rw [if_neg hgon] at hm ⊢
  by_cases hponGon : command = CommandType.ponGon.code
  · rw [if_pos hponGon] at hm ⊢
    obtain ⟨x, hx, rfl⟩ := Option.map_eq_some_iff.mp hm
    rw [stringToCard_of_tileKind hx]
    exact ⟨_, rfl, rfl⟩
  rw [if_neg hponGon] at hm ⊢
  by_cases hanGon : command = CommandType.anGon.code
  · rw [if_pos hanGon] at hm ⊢
    obtain ⟨x, hx, rfl⟩ := Option.map_eq_some_iff.mp hm
    rw [stringToCard_of_tileKind hx]
    exact ⟨_, rfl, rfl⟩
  rw [if_neg hanGon] at hm
  exact absurd hm (by simp)

/-- A message with another command leaves the bot alone. -/
theorem success_of_not_isRecorded [Tokenizer] {b : Bot} {command : ℤ} {tile : List Char}
    (h : Meld.isRecorded command = false) :
    b.success command tile = some b ∧ Meld.read command tile = none := by
  obtain ⟨heat, hpon, hgon, hponGon, hanGon⟩ : command ≠ CommandType.eat.code ∧
      command ≠ CommandType.pon.code ∧ command ≠ CommandType.gon.code ∧
      command ≠ CommandType.ponGon.code ∧ command ≠ CommandType.anGon.code := by
    simpa [Meld.isRecorded] using h
  rw [Bot.success, Meld.read]
  simp only [if_neg heat, if_neg hpon, if_neg hgon, if_neg hponGon, if_neg hanGon, and_self]

/-! ### Whole rounds -/

namespace ServerEvent

/-- The meld that an event announces. -/
def announced [Tokenizer] : ServerEvent → Option Meld
  | .success c tile => Meld.read c tile
  | _ => none

/-- A message about an own claim or kong. -/
def isSuccess : ServerEvent → Bool
  | .success _ _ => true
  | _ => false

/-- The tile text of a recorded command can be read. -/
def Readable [Tokenizer] : ServerEvent → Prop
  | .success c tile => Meld.isRecorded c = true → (Meld.read c tile).isSome = true
  | _ => True

end ServerEvent

/-- The melds that a sequence of events announces, in their order. -/
def meldsOf [Tokenizer] (es : List ServerEvent) : List Meld :=
  es.filterMap ServerEvent.announced

/-- The events after a deal follow the rules: there is no further deal, the texts of the own
claims name their tiles, and the melds follow the rules. -/
structure FollowsRules [Tokenizer] (es : List ServerEvent) : Prop where
  noDeal : ∀ list, .dealTile list ∉ es
  readable : ∀ e ∈ es, e.Readable
  melds : MeldRules (meldsOf es)

/-- The part of a round before an event follows the rules. -/
theorem FollowsRules.init [Tokenizer] {es : List ServerEvent} {e : ServerEvent}
    (h : FollowsRules (es ++ [e])) : FollowsRules es := by
  refine ⟨fun list hmem => h.noDeal list (List.mem_append_left _ hmem),
    fun e' he' => h.readable e' (List.mem_append_left _ he'), ?_⟩
  have hmelds := h.melds
  rw [meldsOf] at hmelds ⊢
  cases hm : e.announced with
  | none => rwa [filterMap_concat_none es hm] at hmelds
  | some m =>
      rw [filterMap_concat_some es hm] at hmelds
      exact hmelds.init

/-- A readable message about an own claim is handled. -/
theorem exists_success [Tokenizer] {b : Bot} {command : ℤ} {tile : List Char}
    (h : (ServerEvent.success command tile).Readable) :
    ∃ b', b.success command tile = some b' := by
  cases hrecorded : Meld.isRecorded command with
  | true =>
      obtain ⟨m, hm⟩ := Option.isSome_iff_exists.mp (h hrecorded)
      obtain ⟨b', hb', -⟩ := success_record (b := b) hm
      exact ⟨b', hb'⟩
  | false => exact ⟨b, (success_of_not_isRecorded hrecorded).1⟩

/-- **One event** of a round that follows the rules keeps the records exact. -/
theorem recorded_of_handles [Tokenizer] {b b' : Bot} {es : List ServerEvent} {e : ServerEvent}
    (h : b.player.meldWords.Recorded (meldsOf es)) (hrules : FollowsRules (es ++ [e]))
    (hstep : b.Handles e b') : b'.player.meldWords.Recorded (meldsOf (es ++ [e])) := by
  obtain ⟨out, hout⟩ := hstep
  have hmelds := hrules.melds
  have hother : e.announced = none → b'.player.meldWords = b.player.meldWords →
      b'.player.meldWords.Recorded (meldsOf (es ++ [e])) := by
    intro hm hwords
    rw [meldsOf, filterMap_concat_none es hm, hwords]
    exact h
  cases e with
  | dealTile list =>
      exact absurd (List.mem_append_right es List.mem_cons_self) (hrules.noDeal list)
  | draw tile =>
      obtain ⟨rfl, -⟩ := Prod.mk.inj (Option.some.inj hout)
      exact hother rfl rfl
  | throw =>
      obtain rfl := Bot.throw_eq_some hout
      exact hother rfl rfl
  | broadcastThrow id tile =>
      obtain ⟨rfl, -⟩ := Prod.mk.inj (Option.some.inj hout)
      exact hother rfl rfl
  | command tiles command idx =>
      obtain ⟨place, rfl⟩ := Bot.command_eq_some hout
      exact hother rfl rfl
  | success command tile =>
      obtain ⟨b'', hb'', hpair⟩ := Option.map_eq_some_iff.mp hout
      obtain ⟨rfl, -⟩ := Prod.mk.inj hpair
      cases hm : Meld.read command tile with
      | none =>
          have hrecorded : Meld.isRecorded command = false := by
            by_contra hrecorded
            have hread := hrules.readable _ (List.mem_append_right es List.mem_cons_self)
              (by simpa using hrecorded)
            rw [hm] at hread
            exact absurd hread (by simp)
          obtain rfl := Option.some.inj ((success_of_not_isRecorded hrecorded).1.symm.trans hb'')
          exact hother hm rfl
      | some m =>
          obtain ⟨b₁, hb₁, hwords⟩ := success_record (b := b) hm
          obtain rfl := Option.some.inj (hb₁.symm.trans hb'')
          have hconcat : meldsOf (es ++ [.success command tile]) = meldsOf es ++ [m] :=
            filterMap_concat_some es hm
          rw [hconcat] at hmelds ⊢
          rw [hwords]
          exact h.record hmelds
  | broadcastCommand id command tile =>
      obtain ⟨b'', hb'', hpair⟩ := Option.map_eq_some_iff.mp hout
      obtain ⟨rfl, -⟩ := Prod.mk.inj hpair
      obtain ⟨discards, rfl⟩ := Bot.broadcastCommand_eq_some hb''
      exact hother rfl rfl
  | other =>
      obtain ⟨rfl, -⟩ := Prod.mk.inj (Option.some.inj hout)
      exact hother rfl rfl

/-- A round that starts with a deal and follows the rules records its melds. -/
theorem recorded_of_run [Tokenizer] {b b' : Bot} {list : List (List Char)} {es : List ServerEvent}
    (h : Run Bot.Handles (b.dealTile list) es b') (hrules : FollowsRules es) :
    b'.player.meldWords.Recorded (meldsOf es) := by
  induction h with
  | nil => exact MeldWords.recorded_nil
  | snoc _ hlast ih => exact recorded_of_handles (ih hrules.init) hrules hlast

/-- **The meld records are exact** after every event of a round that follows the rules (each
prefix of it is such a round), whatever other events come between the claims; and the claims
themselves are always handled. -/
theorem meldsExact_of_run [Tokenizer] (b : Bot) (list : List (List Char)) {es : List ServerEvent}
    (hrules : FollowsRules es) :
    ((∀ e ∈ es, e.isSuccess = true) → ∃ b', Run Bot.Handles (b.dealTile list) es b') ∧
      ∀ b', Run Bot.Handles (b.dealTile list) es b' → MeldsExact b'.player (meldsOf es) := by
  refine ⟨fun hsuccess => ?_, fun b' hrun =>
    meldsExact_of_recorded (recorded_of_run hrun hrules) hrules.melds⟩
  induction es using List.reverseRecOn with
  | nil => exact ⟨_, Run.nil _⟩
  | append_singleton es e ih =>
      obtain ⟨b₁, hrun⟩ := ih hrules.init fun e' he' => hsuccess e' (List.mem_append_left _ he')
      have hlast := hsuccess e (List.mem_append_right es List.mem_cons_self)
      have hreadable := hrules.readable e (List.mem_append_right es List.mem_cons_self)
      cases e with
      | success command tile =>
          obtain ⟨b₂, hb₂⟩ := exists_success (b := b₁) hreadable
          exact ⟨b₂, hrun.snoc ⟨[], by rw [Bot.handle, hb₂]; rfl⟩⟩
      | _ => exact absurd hlast (by simp [ServerEvent.isSuccess])

section

open Words

/-- A run, a triplet that is upgraded to a kong, and a concealed kong. -/
theorem meldsExact_of_run_upgrade :
    ∃ b', Run Bot.Handles ((Bot.init 7).dealTile [])
        [.success 64 ['c', '1', ',', 'c', '2'], .success 1 ['d', '5'],
          .success 8 ['d', '5'], .success 4 ['o', '1']] b' ∧
      MeldsExact b'.player
        [.run 0 (by decide), .triplet 13, .upgrade 13, .concealed 27] := by
  have hmelds : meldsOf
      [.success 64 ['c', '1', ',', 'c', '2'], .success 1 ['d', '5'],
        .success 8 ['d', '5'], .success 4 ['o', '1']] =
      [.run 0 (by decide), .triplet 13, .upgrade 13, .concealed 27] := by
    decide +kernel
  have hrules : FollowsRules
      [.success 64 ['c', '1', ',', 'c', '2'], .success 1 ['d', '5'],
        .success 8 ['d', '5'], .success 4 ['o', '1']] := by
    refine ⟨fun list => by simp, ?_, ?_⟩
    · simp only [List.mem_cons, List.not_mem_nil, or_false, forall_eq_or_imp, forall_eq]
      exact ⟨fun _ => by decide +kernel, fun _ => by decide +kernel, fun _ => by decide +kernel,
        fun _ => by decide +kernel⟩
    · rw [hmelds]
      refine ⟨by decide +kernel, ?_⟩
      have hrun := along_concat.mpr
        ⟨along_nil fun before (m : Meld) => ∀ x, m = .upgrade x → Meld.triplet x ∈ before,
          fun x (h : Meld.run 0 (by decide) = .upgrade x) => by simp at h⟩
      have hupgrade := along_concat.mpr ⟨along_concat.mpr
        ⟨hrun, fun x (h : Meld.triplet 13 = .upgrade x) => by simp at h⟩,
          fun x (h : Meld.upgrade 13 = .upgrade x) => by simp_all⟩
      exact along_concat.mpr ⟨hupgrade, fun x (h : Meld.concealed 27 = .upgrade x) => by simp at h⟩
  obtain ⟨hruns, hexact⟩ := meldsExact_of_run (Bot.init 7) [] hrules
  obtain ⟨b', hb'⟩ := hruns (by simp [ServerEvent.isSuccess])
  exact ⟨b', hb', hmelds ▸ hexact b' hb'⟩

end

end MahjongAI
