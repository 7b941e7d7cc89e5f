import Mathlib.Data.List.Count
import MahjongAI.DrawTiles
import MahjongAI.Game
import MahjongAI.Runs

/-!
# The Deal

The `dealTile` handler sets the words `0` to `4` of the hand and of the discards to zero and
adds the dealt tiles to the hand. The word `5`, the flowers, is left as the rounds before
have left it, and an addition to a flower that is still counted carries into the next one.

## Main results

* `cleanTable_iff`: after a deal the table is clean exactly when neither the hand nor the discards
  counted a flower before it, in any state of the bot.
* `cleanTable_of_run`: so it is at the end of every run that ends with a deal; `not_cleanTable`: the
  same flower may be dealt twice.
-/

open Packed Runs

namespace MahjongAI

namespace MJCards

/-! ### Counts of lists of tiles -/

/-- **Adding tiles with room** adds their numbers to the counts. -/
theorem countCard_addCards {s : MJCards} {cards : List MJCard} (hvalid : ∀ c ∈ cards, c.Valid)
    (hroom : ∀ c : MJCard, c.Valid → s.countCard c + cards.count c ≤ fieldCap c.color)
    {d : MJCard} (hd : d.Valid) :
    (s.addCards cards).countCard d = s.countCard d + cards.count d := by
  induction cards generalizing s with
  | nil => simp [addCards]
  | cons c cards ih =>
      have hc : c.Valid := hvalid c List.mem_cons_self
      have hself := hroom c hc
      rw [List.count_cons_self] at hself
      push_cast at hself
      have hadd := fun (e : MJCard) (he : e.Valid) =>
        countCard_addCard s hc he (by omega : s.countCard c < fieldCap c.color)
      have hone : ∀ e : MJCard, ((c :: cards).count e : ℤ) =
          (if e = c then 1 else 0) + cards.count e := by
        intro e
        rw [List.count_cons]
        by_cases hec : e = c
        · simp [hec, add_comm]
        · simp [hec, Ne.symm hec]
      have hrest := ih (s := s.addCard c) (fun e he => hvalid e (List.mem_cons_of_mem c he))
        fun e he => by
          have := hroom e he
          rw [hone] at this
          rw [hadd e he]
          omega
      rw [hone, ← add_assoc, ← hadd d hd]
      exact hrest

/-- The flowers of a sum of tiles lie above the flowers that were there. -/
theorem flowersCards_addCards (s : MJCards) (cards : List MJCard) :
    (s.addCards cards).flowersCards =
      s.flowersCards + ((make false).addCards cards).flowersCards := by
  have hcard : ∀ (t : MJCards) (c : MJCard), (t.addCard c).flowersCards = t.flowersCards +
      if c.color = 5 then unit 1 c.value.toNat else 0 := by
    intro t c
    rw [addCard]
    split_ifs <;> first | omega | simp
  have hfold : ∀ (t : MJCards) (l : List MJCard), (t.addCards l).flowersCards =
      t.flowersCards + (l.map fun c => if c.color = 5 then unit 1 c.value.toNat else 0).sum := by
    intro t l
    induction l generalizing t with
    | nil => simp [addCards]
    | cons c l ih =>
        rw [List.map_cons, List.sum_cons, ← add_assoc, ← hcard]
        exact ih (t.addCard c)
  rw [hfold s, hfold (make false)]
  simp [make]

/-- A card set without a flower. -/
def NoFlowers (s : MJCards) : Prop :=
  ∀ v : ℤ, 0 ≤ v → v < 8 → s.countCard ⟨5, v⟩ = 0

/-- A card set without a flower counts no tile after the clearing. -/
theorem NoFlowers.countCard_clearWords {s : MJCards} (h : s.NoFlowers) {card : MJCard}
    (hcard : card.Valid) : s.clearWords.countCard card = 0 := by
  rw [MJCards.countCard_clearWords s hcard]
  split
  · rename_i h5
    obtain ⟨-, -, hv0, hv⟩ := hcard
    rw [h5] at hv
    obtain ⟨color, value⟩ := card
    subst h5
    exact h value hv0 hv
  · rfl

/-- The clearing empties a card set exactly when it counted no flower. -/
theorem count_clearWords_iff {s : MJCards} : s.clearWords.count = 0 ↔ s.NoFlowers := by
  rw [count_eq_zero_iff]
  constructor
  · intro h v h0 h8
    have hcard : (⟨5, v⟩ : MJCard).Valid := ⟨by norm_num, le_rfl, h0, h8⟩
    have hflower := h _ hcard
    rwa [countCard_clearWords s hcard, if_pos rfl] at hflower
  · exact fun h card hcard => h.countCard_clearWords hcard

/-- **The dealt hand** counts exactly the dealt tiles when the flowers were empty, and only
then: what is left in their word shows as a wrong count of some flower. -/
theorem countCard_deal_iff {s : MJCards} {cards : List MJCard} (hvalid : ∀ c ∈ cards, c.Valid)
    (hcap : ∀ c : MJCard, c.Valid → (cards.count c : ℤ) ≤ fieldCap c.color) :
    (∀ c : MJCard, c.Valid → (s.clearWords.addCards cards).countCard c = cards.count c) ↔
      s.NoFlowers := by
  constructor
  · intro h v h0 h8
    have hempty : ∀ c : MJCard, c.Valid → (make false).countCard c = 0 := by
      intro c hc
      have hall : ∀ c ∈ allCards, (make false).countCard c = 0 := by decide
      exact hall c (mem_allCards.mpr hc)
    have hfields : ∀ i < 8, field 1 (s.flowersCards + ((make false).addCards cards).flowersCards) i =
        field 1 ((make false).addCards cards).flowersCards i := by
      intro i hi
      have hcard : (⟨5, i⟩ : MJCard).Valid :=
        ⟨by norm_num, le_rfl, Int.natCast_nonneg i, Int.ofNat_lt.mpr hi⟩
      have hdealt := h _ hcard
      have halone := countCard_addCards (s := make false) hvalid (fun c hc => by
        rw [hempty c hc, zero_add]
        exact hcap c hc) hcard
      rw [hempty _ hcard, zero_add, ← hdealt, countCard_eq _ hcard, countCard_eq _ hcard] at halone
      have hsum := flowersCards_addCards s.clearWords cards
      have hword : (s.clearWords.addCards cards).get 5 =
          s.flowersCards + ((make false).addCards cards).flowersCards := hsum
      rw [show (⟨5, i⟩ : MJCard).color = 5 from rfl, hword] at halone
      exact halone.symm
    -- the flowers left over are a multiple of the whole word
    have hmod := pack_congr (w := 1) (n := 8) hfields
    rw [pack_field_eq_emod, pack_field_eq_emod] at hmod
    have hrest : pack 1 8 (field 1 s.flowersCards) = pack 1 8 (field 1 0) := by
      rw [pack_field_eq_emod, pack_field_eq_emod]
      norm_num at hmod ⊢
      omega
    have hfield := fun u : ℤ => field_pack (w := 1) (n := 8) (c := field 1 u) (i := v.toNat)
      (fun i _ => field_nonneg 1 u i) (fun i _ => field_lt 1 u i) (by omega)
    have hcard : (⟨5, v⟩ : MJCard).Valid := ⟨by norm_num, le_rfl, h0, h8⟩
    rw [countCard_eq _ hcard]
    calc field 1 s.flowersCards v.toNat = field 1 0 v.toNat := by
          rw [← hfield s.flowersCards, hrest, hfield 0]
      _ = 0 := field_zero 1 _
  · intro h c hc
    have hadd := countCard_addCards (s := s.clearWords) hvalid (fun d hd => by
      rw [h.countCard_clearWords hd, zero_add]
      exact hcap d hd) hc
    rw [hadd, h.countCard_clearWords hc, zero_add]

end MJCards

/-! ### The handler -/

/-- A deal: texts of tiles, no tile more often than the whole set holds it. -/
structure Dealable (list : List (List Char)) : Prop where
  valid : ∀ tile ∈ list, (stringToCard tile).Valid
  cap : ∀ card : MJCard, card.Valid →
    ((list.map stringToCard).count card : ℤ) ≤ fieldCap card.color

/-- A **clean table** after the deal of `list`: the hand counts exactly the dealt tiles,
nothing has been discarded, and nothing is melded. -/
structure CleanTable (b : Bot) (list : List (List Char)) : Prop where
  hand : ∀ card : MJCard, card.Valid →
    b.player.Hand.countCard card = (list.map stringToCard).count card
  discards : b.player.discards.count = 0
  melds : b.player.eat = 0 ∧ b.player.pon = 0 ∧ b.player.gon = 0 ∧ b.player.anGon = 0

/-- Neither the hand nor the discards count a flower. -/
def Bot.NoFlowers (b : Bot) : Prop :=
  b.player.Hand.NoFlowers ∧ b.player.discards.NoFlowers

/-- **The deal** leaves a clean table exactly when no flower was counted before it. -/
theorem cleanTable_iff {b : Bot} {list : List (List Char)} (hlist : Dealable list) :
    CleanTable (b.dealTile list) list ↔ b.NoFlowers := by
  have hvalid : ∀ c ∈ list.map stringToCard, c.Valid := by
    intro c hc
    obtain ⟨tile, htile, rfl⟩ := List.mem_map.mp hc
    exact hlist.valid tile htile
  have hhand := MJCards.countCard_deal_iff (s := b.player.Hand) hvalid hlist.cap
  have hdiscards := MJCards.count_clearWords_iff (s := b.player.discards)
  constructor
  · exact fun h => ⟨hhand.mp h.hand, hdiscards.mp h.discards⟩
  · exact fun h => ⟨hhand.mpr h.1, hdiscards.mpr h.2, rfl, rfl, rfl, rfl⟩

/-- The bot handles an event. -/
def Bot.Handles [Tokenizer] (b : Bot) (e : ServerEvent) (b' : Bot) : Prop :=
  ∃ out, b.handle e = some (b', out)

/-- **Deals in runs.** Every run of handled events that ends with a deal leaves a clean table
exactly when the state before the deal counted no flower. -/
theorem cleanTable_of_run [Tokenizer] {id : ℤ} {es : List ServerEvent} {list : List (List Char)}
    {b' : Bot}
    (h : Run Bot.Handles (Bot.init id) (es ++ [.dealTile list]) b') (hlist : Dealable list) :
    ∃ b, Run Bot.Handles (Bot.init id) es b ∧ (CleanTable b' list ↔ b.NoFlowers) := by
  generalize hall : es ++ [ServerEvent.dealTile list] = all at h
  cases h with
  | nil => exact absurd hall (by simp)
  | snoc hrun hlast =>
      obtain ⟨rfl, hdeal⟩ := List.append_inj' hall rfl
      obtain rfl := List.singleton_inj.mp hdeal
      obtain ⟨out, hout⟩ := hlast
      obtain ⟨rfl, -⟩ := Prod.mk.inj (Option.some.inj hout)
      exact ⟨_, hrun, cleanTable_iff hlist⟩

section

open Words

/-- A round in which a triplet is claimed and a tile is thrown. -/
def claimedRound : List ServerEvent :=
  [.dealTile (["d5", "d5", "c1", "b2"].map String.toList), .broadcastThrow 2 "d5".toList,
    .success CommandType.pon.code "d5".toList, .broadcastThrow 7 "b2".toList]

/-- After that round a flower is dealt. -/
theorem cleanTable_of_run_second :
    ∃ b', Run Bot.Handles (Bot.init 7)
        (claimedRound ++ [.dealTile (["f1", "c1"].map String.toList)]) b' ∧
      ∃ b, Run Bot.Handles (Bot.init 7) claimedRound b ∧
        (CleanTable b' (["f1", "c1"].map String.toList) ↔ b.NoFlowers) := by
  have hround : (claimedRound.foldlM (fun b e => (Bot.handle b e).map Prod.fst)
      (Bot.init 7)).isSome = true := by decide +kernel
  obtain ⟨b, hb⟩ := Option.isSome_iff_exists.mp hround
  have hrun : Run Bot.Handles (Bot.init 7) claimedRound b :=
    (run_iff_foldlM.mpr hb).mono fun hstep => by
      obtain ⟨⟨b', out⟩, hhandle, rfl⟩ := Option.map_eq_some_iff.mp hstep
      exact ⟨out, hhandle⟩
  have hdeal := hrun.snoc (e := .dealTile (["f1", "c1"].map String.toList)) ⟨[], rfl⟩
  refine ⟨_, hdeal, cleanTable_of_run hdeal ⟨by decide, fun card hcard => ?_⟩⟩
  have hall : ∀ c ∈ allCards,
      (((["f1", "c1"].map String.toList).map stringToCard).count c : ℤ) ≤ fieldCap c.color := by
    decide
  exact hall card (mem_allCards.mpr hcard)

/-- Without the condition this fails: a flower that is dealt twice is counted as the
next flower. -/
theorem not_cleanTable :
    ¬ ∀ (id : ℤ) (es : List ServerEvent) (list : List (List Char)) (b' : Bot),
      Run Bot.Handles (Bot.init id) (es ++ [.dealTile list]) b' → Dealable list →
        CleanTable b' list := by
  intro h
  have hfirst : Run Bot.Handles (Bot.init 7) ([] ++ [.dealTile [['f', '1']]])
      ((Bot.init 7).dealTile [['f', '1']]) := (Run.nil _).snoc ⟨[], rfl⟩
  have hrun : Run Bot.Handles (Bot.init 7) ([.dealTile [['f', '1']]] ++ [.dealTile [['f', '1']]])
      (((Bot.init 7).dealTile [['f', '1']]).dealTile [['f', '1']]) := hfirst.snoc ⟨[], rfl⟩
  have hall : ∀ c ∈ allCards,
      (([['f', '1']].map stringToCard).count c : ℤ) ≤ fieldCap c.color := by decide
  have hclean := h _ _ _ _ hrun ⟨by decide, fun card hcard =>
    hall card (mem_allCards.mpr hcard)⟩
  exact absurd (hclean.hand ⟨5, 0⟩ (by decide)) (by decide)

end

end MahjongAI
