import MahjongAI.Throws

/-!
# The Melds of a Lawful Round

The records of the melds are exact as long as the claims keep the rules for melds
(`MeldRules`): no kind is used more often than it exists, and only a triplet that is there
is upgraded. Nothing in the handlers sees to that. It follows from the table, where every
claim takes the tile that was thrown last and shows tiles of the hand: what is melded has
been seen or lies in a concealed kong, and the thrown tile is not melded before it is
claimed.

Along a lawful round the melds also make up for the tiles that have left the hand, so that
`Player::Count`, which takes three for each meld, is the size of the deal.

## Main results

* `Table.Accounts.step`: what is melded lies on the table, after every event.
* `Play.records_of_runs`: the records of a lawful round are exact, and the bot has the
  tiles of its deal, with one more in `Hand` before a throw.
-/

open Runs Packed

namespace MahjongAI

/-! ### The number of tiles in hand -/

/-- A kind is no flower. -/
theorem color_cardOf : ∀ x : Kind, (cardOf x).color ≠ 5 := by
  decide

namespace MJCards

theorem flowersCards_addCard (s : MJCards) (x : Kind) :
    (s.addCard (cardOf x)).flowersCards = s.flowersCards := by
  have hcolor := color_cardOf x
  rw [addCard]
  split_ifs <;> rfl

theorem flowersCards_subCard (s : MJCards) (x : Kind) :
    (s.subCard (cardOf x)).flowersCards = s.flowersCards := by
  have hcolor := color_cardOf x
  rw [subCard]
  split_ifs <;> rfl

theorem flowersCards_addKinds (s : MJCards) (ks : List Kind) :
    (s.addCards (ks.map cardOf)).flowersCards = s.flowersCards := by
  induction ks generalizing s with
  | nil => rfl
  | cons k ks ih => exact (ih (s.addCard (cardOf k))).trans (flowersCards_addCard s k)

theorem flowersCards_subKinds (s : MJCards) (ks : List Kind) :
    (s.subCards (ks.map cardOf)).flowersCards = s.flowersCards := by
  induction ks generalizing s with
  | nil => rfl
  | cons k ks ih => exact (ih (s.subCard (cardOf k))).trans (flowersCards_subCard s k)

/-- Every tile of the set but the flowers is of some kind. -/
theorem exists_kind : ∀ c ∈ allCards, c.color = 5 ∨ ∃ x, c = cardOf x := by
  decide +kernel

theorem cardOf_injective : Function.Injective cardOf := by
  intro x y h
  have hx := kindOf_cardOf x
  rw [h, kindOf_cardOf] at hx
  exact (Option.some.inj hx).symm

/-- **`Count()`** of a card set without flowers is the number of the tiles it counts. -/
theorem Counts.count_eq_card {s : MJCards} {H : Multiset Kind} (h : s.Counts H)
    (hflowers : s.flowersCards = 0) : s.count = H.card := by
  have htiles : (s.tiles : Multiset MJCard) = H.map cardOf := by
    refine Multiset.ext' fun c => ?_
    rw [Multiset.coe_count, count_tiles]
    by_cases hc : c.Valid
    · rw [if_pos hc]
      rcases exists_kind c (mem_allCards.mpr hc) with h5 | ⟨x, rfl⟩
      · have hnot : c ∉ H.map cardOf := by
          intro hmem
          obtain ⟨x, -, rfl⟩ := Multiset.mem_map.mp hmem
          exact color_cardOf x h5
        have hempty : s.countCard c = 0 := by
          rw [countCard_eq s hc, h5]
          exact (congrArg (field _ · _) hflowers).trans (field_zero _ _)
        rw [hempty, Multiset.count_eq_zero_of_notMem hnot]
        rfl
      · rw [h.count_eq, Multiset.count_map_eq_count' _ _ cardOf_injective, Int.toNat_natCast]
    · rw [if_neg hc]
      refine (Multiset.count_eq_zero_of_notMem fun hmem => ?_).symm
      obtain ⟨x, -, rfl⟩ := Multiset.mem_map.mp hmem
      exact hc (cardOf_valid x)
  rw [← length_tiles, ← Multiset.coe_card, htiles, Multiset.card_map]

end MJCards

/-! ### Claims as melds -/

/-- A claim makes a meld: of what it takes from the hand and of the tile that is claimed. -/
structure Claim.Makes (c : Claim) (m : Meld) : Prop where
  tiles : (m.tiles : Multiset Kind) = c.taken + (c.claimed.toList : Multiset Kind)
  pon : ∀ x, c = .pon x → m = .triplet x
  upgrade : ∀ x, m = .upgrade x → c = .ponGon x
  isNew : m.isNew = true ↔ ∀ x, c ≠ .ponGon x

/-- The meld that a message announces is the one that its claim makes. -/
theorem exists_makes [Tokenizer] {command : ℤ} {tile : List Char} {c : Claim}
    (hc : Claim.read command tile = some c) :
    c = .nothing ∧ Meld.isRecorded command = false ∨
      ∃ m, Meld.read command tile = some m ∧ c.Makes m := by
  rw [Claim.read] at hc
  rw [Meld.read]
  by_cases heat : command = CommandType.eat.code
  · rw [if_pos heat] at hc ⊢
    obtain ⟨⟨S, x⟩, hS, rfl⟩ := Option.map_eq_some_iff.mp hc
    rw [eatTiles] at hS
    cases htokens : tokens tile with
    | nil => exact absurd hS (by simp [htokens])
    | cons first l =>
        cases l with
        | nil => exact absurd hS (by simp [htokens])
        | cons center rest =>
            simp only [htokens] at hS ⊢
            split at hS
            · rename_i y x' hfirst hcenter
              split at hS
              · rename_i hrun
                obtain ⟨rfl, rfl⟩ := Prod.mk.inj (Option.some.inj hS)
                refine Or.inr ⟨.run y hrun.1, ?_, ?_, by simp, by simp, by simp [Meld.isNew]⟩
                · simp only [hfirst, Option.bind_some, dif_pos hrun.1]
                · have hmem : x' ∈ (↑[y, y + 1, y + 2] : Multiset Kind) := hrun.2
                  have hcons := Multiset.cons_erase hmem
                  rw [Multiset.coe_erase, ← Multiset.singleton_add, add_comm] at hcons
                  exact hcons.symm
              · exact absurd hS (by simp)
            · exact absurd hS (by simp)
  rw [if_neg heat] at hc ⊢
  by_cases hpon : command = CommandType.pon.code
  · rw [if_pos hpon] at hc ⊢
    obtain ⟨x, hx, rfl⟩ := Option.map_eq_some_iff.mp hc
    exact Or.inr ⟨.triplet x, by rw [hx]; rfl, rfl, by simp, by simp, by simp [Meld.isNew]⟩
  rw [if_neg hpon] at hc ⊢
  by_cases hgon : command = CommandType.gon.code
  · rw [if_pos hgon] at hc ⊢
    obtain ⟨x, hx, rfl⟩ := Option.map_eq_some_iff.mp hc
    exact Or.inr ⟨.kong x, by rw [hx]; rfl, rfl, by simp, by simp, by simp [Meld.isNew]⟩
  rw [if_neg hgon] at hc ⊢
  by_cases hponGon : command = CommandType.ponGon.code
  · rw [if_pos hponGon] at hc ⊢
    obtain ⟨x, hx, rfl⟩ := Option.map_eq_some_iff.mp hc
    exact Or.inr ⟨.upgrade x, by rw [hx]; rfl, rfl, by simp, by simp, by simp [Meld.isNew]⟩
  rw [if_neg hponGon] at hc ⊢
  by_cases hanGon : command = CommandType.anGon.code
  · rw [if_pos hanGon] at hc ⊢
    obtain ⟨x, hx, rfl⟩ := Option.map_eq_some_iff.mp hc
    exact Or.inr ⟨.concealed x, by rw [hx]; rfl, rfl, by simp, by simp, by simp [Meld.isNew]⟩
  rw [if_neg hanGon] at hc
  obtain rfl := Option.some.inj hc
  exact Or.inl ⟨rfl, by simp [Meld.isRecorded, heat, hpon, hgon, hponGon, hanGon]⟩

/-- A meld has tiles. -/
theorem Claim.Makes.ne_nothing {c : Claim} {m : Meld} (h : c.Makes m) : c ≠ .nothing := by
  rintro rfl
  have hempty : m.tiles = [] := (Multiset.coe_eq_zero _).mp h.tiles
  cases m <;> simp [Meld.tiles] at hempty

/-- A claim that makes a meld ends the turn it was made in. -/
theorem Claim.Makes.turn_ne {c : Claim} {m : Meld} (h : c.Makes m) (s : Seat) :
    (s.succeed c).turn ≠ .idle := by
  cases c with
  | eat | pon | gon | ponGon | anGon => simp [Seat.succeed]
  | nothing => exact absurd rfl h.ne_nothing

/-- One more event announces its meld, if it has one. -/
theorem meldsOf_concat [Tokenizer] (es : List ServerEvent) (e : ServerEvent) :
    meldsOf (es ++ [e]) = meldsOf es ++ e.announced.toList := by
  cases he : e.announced with
  | none => rw [meldsOf, filterMap_concat_none es he, Option.toList_none, List.append_nil, meldsOf]
  | some m => rw [meldsOf, filterMap_concat_some es he, Option.toList_some, meldsOf]

/-- What a claim takes from the hand is shown or hidden. -/
theorem shown_add_hidden (c : Claim) : (c.shown + c.hidden : Multiset Kind) = c.taken := by
  cases c <;> simp [Claim.shown, Claim.hidden, Claim.taken]

/-! ### The melds on the table -/

/-- **What is melded lies on the table**: it has been seen or is concealed, and nothing that
was thrown last is melded before it is claimed; a triplet of the seat has been melded. -/
structure Table.Accounts (t : Table) (ms : List Meld) : Prop where
  melds : (ms.flatMap Meld.tiles : Multiset Kind) ≤ t.seen + t.anKong
  unclaimed : t.seat.turn = .idle → ∀ x, t.lastThrow = some x →
    x ::ₘ (ms.flatMap Meld.tiles : Multiset Kind) ≤ t.seen + t.anKong
  pons : ∀ x ∈ t.seat.pons, .triplet x ∈ ms
  rules : MeldRules ms

namespace TableGame

variable {g g' : TableGame} {e : ServerEvent}

/-- What an event shows, and what it does to the seat. -/
theorem exists_record [Tokenizer] (h : g.step e = some g') :
    ∃ out t, g.bot.handle e = some (g'.bot, out) ∧ g.table.record g.bot.player.id e = some t ∧
      g.table.seat.next g.bot.player.id out e = some g'.table.seat ∧
      g'.table = { t with seat := g'.table.seat } ∧ ∀ x, g'.table.known.count x ≤ 4 := by
  rw [step] at h
  split at h
  · exact absurd h (by simp)
  · rename_i bot out hhandle
    obtain ⟨table, htable, rfl⟩ := Option.map_eq_some_iff.mp h
    rw [Table.next] at htable
    split at htable
    · rename_i t seat hrecord hseat
      split at htable
      · rename_i hknown
        obtain rfl := Option.some.inj htable
        exact ⟨out, t, hhandle, hrecord, hseat, rfl, hknown⟩
      · exact absurd htable (by simp)
    · exact absurd htable (by simp)

end TableGame

namespace Table.Accounts

variable {t t' : Table} {ms : List Meld}

theorem init {t : Table} (hpons : t.seat.pons = 0) (hlast : t.lastThrow = none) :
    t.Accounts [] where
  melds := Multiset.zero_le _
  unclaimed _ x hx := by simp [hlast] at hx
  pons x hx := by simp [hpons] at hx
  rules := ⟨fun _ => Nat.zero_le 4, along_nil _⟩

/-- More is seen, the seat has no new triplet and is not newly out of turn, and nothing was
thrown. -/
theorem mono (h : t.Accounts ms) (hseen : t.seen + t.anKong ≤ t'.seen + t'.anKong)
    (hlast : t'.lastThrow = t.lastThrow) (hturn : t'.seat.turn = .idle → t.seat.turn = .idle)
    (hpons : t'.seat.pons = t.seat.pons) : t'.Accounts ms where
  melds := h.melds.trans hseen
  unclaimed hidle x hx := (h.unclaimed (hturn hidle) x (hlast ▸ hx)).trans hseen
  pons := hpons ▸ h.pons
  rules := h.rules

/-- A tile is thrown. -/
theorem thrown (h : t.Accounts ms) {x : Kind} (hseen : t'.seen = x ::ₘ t.seen)
    (hanKong : t'.anKong = t.anKong) (hlast : t'.lastThrow = some x)
    (hpons : t'.seat.pons = t.seat.pons) : t'.Accounts ms := by
  have hcons : t'.seen + t'.anKong = x ::ₘ (t.seen + t.anKong) := by
    rw [hseen, hanKong, Multiset.cons_add]
  refine ⟨?_, fun _ y hy => ?_, hpons ▸ h.pons, h.rules⟩
  · rw [hcons]
    exact h.melds.trans (Multiset.le_cons_self _ _)
  · obtain rfl := Option.some.inj (hlast.symm.trans hy)
    rw [hcons]
    exact Multiset.cons_le_cons _ h.melds

/-- **A claim** melds tiles that lie on the table, as often as they exist. -/
theorem claim (h : t.Accounts ms) {c : Claim} {m : Meld} (hmakes : c.Makes m)
    (hallows : t.seat.Allows c) (hclaimed : c.claimed = none ∨ c.claimed = t.lastThrow)
    (hseat : t'.seat = t.seat.succeed c) (hseen : t'.seen = t.seen + c.shown)
    (hanKong : t'.anKong = t.anKong + c.hidden) (hknown : ∀ x, t'.known.count x ≤ 4) :
    t'.Accounts (ms ++ [m]) := by
  -- the claimed tile is the one thrown last, and is not melded yet
  have hplaced : (ms.flatMap Meld.tiles : Multiset Kind) + (c.claimed.toList : Multiset Kind) ≤
      t.seen + t.anKong := by
    cases hx : c.claimed with
    | none => simpa using h.melds
    | some x =>
        have hlast : t.lastThrow = some x := by
          rcases hclaimed with hnone | hlast
          · exact absurd (hnone.symm.trans hx) (by simp)
          · rw [← hlast, hx]
        have hidle : t.seat.turn = .idle := by
          cases c with
          | eat => exact hallows.2
          | pon => exact hallows.2.1
          | gon => exact hallows.2
          | ponGon | anGon | nothing => simp [Claim.claimed] at hx
        have hle := h.unclaimed hidle x hlast
        rwa [← Multiset.singleton_add, add_comm] at hle
  have htable : t'.seen + t'.anKong = t.seen + t.anKong + c.taken := by
    rw [hseen, hanKong, ← shown_add_hidden c, add_add_add_comm]
  have hmelds : ((ms ++ [m]).flatMap Meld.tiles : Multiset Kind) ≤ t'.seen + t'.anKong := by
    have hsplit : ((ms ++ [m]).flatMap Meld.tiles : Multiset Kind) =
        ms.flatMap Meld.tiles + (c.claimed.toList : Multiset Kind) + c.taken := by
      rw [List.flatMap_append, ← Multiset.coe_add, List.flatMap_singleton, hmakes.tiles,
        add_assoc, add_comm (c.taken : Multiset Kind)]
    rw [hsplit, htable]
    exact add_le_add_left hplaced _
  refine ⟨hmelds, fun hidle => absurd (hseat ▸ hidle) (hmakes.turn_ne t.seat), ?_, ?_, ?_⟩
  · intro x hx
    rw [hseat] at hx
    rw [List.mem_append, List.mem_singleton]
    cases c with
    | pon y =>
        rcases Multiset.mem_cons.mp hx with rfl | hx
        · exact Or.inr (hmakes.pon x rfl).symm
        · exact Or.inl (h.pons x hx)
    | ponGon y => exact Or.inl (h.pons x (Multiset.mem_of_mem_erase hx))
    | eat | gon | anGon | nothing => exact Or.inl (h.pons x hx)
  · intro x
    have hle := Multiset.le_iff_count.mp hmelds x
    have hx := hknown x
    rw [Multiset.coe_count] at hle
    simp only [known, Multiset.count_add] at hle hx
    omega
  · refine along_concat.mpr ⟨h.rules.upgrades, fun x hm => ?_⟩
    obtain rfl := hmakes.upgrade x hm
    exact h.pons x hallows.2.2

end Table.Accounts

namespace TableGame

variable {g g' : TableGame} {e : ServerEvent} {ms : List Meld}

/-- A message of a run at the table can be read. -/
theorem readable_of_step [Tokenizer] (h : g.step e = some g') : e.Readable := by
  obtain ⟨out, t, -, hrecord, -⟩ := exists_record h
  cases e with
  | success command tile =>
      obtain ⟨c, hc, -⟩ := Option.bind_eq_some_iff.mp hrecord
      intro hrecorded
      rcases exists_makes hc with ⟨-, hnot⟩ | ⟨m, hm, -⟩
      · exact absurd (hrecorded.symm.trans hnot) (by simp)
      · rw [hm]
        rfl
  | _ => trivial

/-- **One event** at the table, with the meld that it announces. -/
theorem accounts_step [Tokenizer] (h : g.table.Accounts ms) (hstep : g.step e = some g')
    (hdeal : ∀ list, e ≠ .dealTile list) : g'.table.Accounts (ms ++ e.announced.toList) := by
  obtain ⟨out, t, -, hrecord, hseat, htable, hknown⟩ := exists_record hstep
  -- a table that shows more, at a seat that stays
  have hmore : g.table.seen + g.table.anKong ≤ t.seen + t.anKong →
      t.lastThrow = g.table.lastThrow → e.announced = none →
      (g'.table.seat.turn = .idle → g.table.seat.turn = .idle) →
      g'.table.seat.pons = g.table.seat.pons →
      g'.table.Accounts (ms ++ e.announced.toList) := by
    intro hseen hlast hnone hturn hpons
    rw [hnone, Option.toList_none, List.append_nil]
    exact h.mono (by rwa [htable]) (by rw [htable]; exact hlast) hturn hpons
  cases e with
  | dealTile list => exact absurd rfl (hdeal list)
  | draw tile =>
      obtain rfl := Option.some.inj hrecord
      simp only [Seat.next] at hseat
      split at hseat
      · split at hseat
        · obtain hseat := Option.some.inj hseat
          exact hmore le_rfl rfl rfl (fun hidle => by rw [← hseat] at hidle; simp at hidle)
            (by rw [← hseat])
        · exact absurd hseat (by simp)
      · exact absurd hseat (by simp)
  | throw =>
      obtain rfl := Option.some.inj hrecord
      simp only [Seat.next] at hseat
      split at hseat
      · obtain hseat := Option.some.inj hseat
        exact hmore le_rfl rfl rfl (fun hidle => by rw [← hseat] at hidle; simp at hidle)
          (by rw [← hseat])
      · exact absurd hseat (by simp)
  | broadcastThrow id tile =>
      obtain ⟨x, hx, rfl⟩ := Option.map_eq_some_iff.mp hrecord
      have hpons : g'.table.seat.pons = g.table.seat.pons := by
        simp only [Seat.next, hx] at hseat
        split_ifs at hseat <;> rw [← Option.some.inj hseat]
      rw [show (ServerEvent.broadcastThrow id tile).announced = none from rfl,
        Option.toList_none, List.append_nil]
      exact h.thrown (by rw [htable]) (by rw [htable]) (by rw [htable]) hpons
  | command tiles command idx =>
      have ht : t = g.table := by
        simp only [Table.record] at hrecord
        split at hrecord
        · exact (Option.some.inj hrecord).symm
        · exact (Option.some.inj hrecord).symm
        · exact absurd hrecord (by simp)
      have hseat : g'.table.seat = g.table.seat := (Option.some.inj hseat).symm
      subst ht
      exact hmore le_rfl rfl rfl (fun hidle => hseat ▸ hidle) (by rw [hseat])
  | success command tile =>
      obtain ⟨c, hc, hrecord⟩ := Option.bind_eq_some_iff.mp hrecord
      simp only [Seat.next, hc] at hseat
      split_ifs at hseat hrecord with hallows hclaimed
      obtain rfl := Option.some.inj hrecord
      have hseat : g'.table.seat = g.table.seat.succeed c := (Option.some.inj hseat).symm
      rcases exists_makes hc with ⟨rfl, hnot⟩ | ⟨m, hm, hmakes⟩
      · have hnone : Meld.read command tile = none :=
          (success_of_not_isRecorded (b := g.bot) hnot).2
        exact hmore (by simp [Claim.shown, Claim.taken, Claim.hidden]) rfl hnone
          (fun hidle => by rwa [hseat] at hidle) (by rw [hseat]; rfl)
      · rw [show (ServerEvent.success command tile).announced = some m from hm,
          Option.toList_some]
        exact h.claim hmakes hallows hclaimed hseat (by rw [htable]) (by rw [htable]) hknown
  | broadcastCommand id command tile =>
      have hseat : g'.table.seat = g.table.seat := (Option.some.inj hseat).symm
      obtain ⟨hseen, hanKong, hlast⟩ : g.table.seen ≤ t.seen ∧ t.anKong = g.table.anKong ∧
          t.lastThrow = g.table.lastThrow := by
        simp only [Table.record] at hrecord
        split_ifs at hrecord
        · obtain rfl := Option.some.inj hrecord
          exact ⟨le_rfl, rfl, rfl⟩
        · obtain ⟨c, -, hrecord⟩ := Option.bind_eq_some_iff.mp hrecord
          split_ifs at hrecord
          obtain rfl := Option.some.inj hrecord
          exact ⟨Multiset.le_add_right _ _, rfl, rfl⟩
      exact hmore (by rw [hanKong]; exact add_le_add_left hseen _) hlast rfl
        (fun hidle => hseat ▸ hidle) (by rw [hseat])
  | other =>
      obtain rfl := Option.some.inj hrecord
      have hseat : g'.table.seat = g.table.seat := (Option.some.inj hseat).symm
      exact hmore le_rfl rfl rfl (fun hidle => hseat ▸ hidle) (by rw [hseat])

/-- **A run at the table**, up to the next deal, follows the rules for melds. -/
theorem accounts_of_run [Tokenizer] {es : List ServerEvent}
    (h : Run (fun g e g' => step g e = some g') g es g')
    (hinit : g.table.Accounts []) (hdeal : ∀ list, .dealTile list ∉ es) :
    g'.table.Accounts (meldsOf es) ∧ FollowsRules es := by
  induction h with
  | nil => exact ⟨hinit, hdeal, fun e he => absurd he (by simp), hinit.rules⟩
  | snoc hrun hlast ih =>
      rename_i t u es e
      obtain ⟨haccounts, hrules⟩ := ih fun list hmem =>
        hdeal list (List.mem_append_left _ hmem)
      have hstep := accounts_step haccounts hlast fun list he =>
        hdeal list (by rw [he]; exact List.mem_append_right es List.mem_cons_self)
      rw [← meldsOf_concat] at hstep
      refine ⟨hstep, hdeal, fun e' he' => ?_, hstep.rules⟩
      rcases List.mem_append.mp he' with he' | he'
      · exact hrules.readable e' he'
      · rw [List.mem_singleton.mp he']
        exact readable_of_step hlast

end TableGame

/-! ### The size of the hand -/

/-- The tiles that are in `Hand` beyond those of the deal: one after a claim, and one when a
throw has been named. -/
def Turn.surplus : Turn → ℕ
  | .claimed | .asked _ => 1
  | _ => 0

namespace Play

variable {s s' : Play} {e : ServerEvent} {n : ℕ} {ms : List Meld}

/-- The melds make up for the tiles that have left a hand of `n`. -/
def Balanced (s : Play) (n : ℕ) (ms : List Meld) : Prop :=
  s.seat.hand.card + 3 * ms.countP Meld.isNew + 1 = n + s.seat.turn.extra

/-- A claim that was made, with its meld. -/
theorem Balanced.succeed [Tokenizer] {command : ℤ} {tile : List Char} {c : Claim} {m : Meld}
    (h : s.Balanced n ms) (hc : Claim.read command tile = some c) (hmakes : c.Makes m)
    (hready : Ready s.seat c) (hseat : s'.seat = s.seat.succeed c) :
    s'.Balanced n (ms ++ [m]) := by
  obtain ⟨⟨hallows, -⟩, hkong⟩ := hready
  have hlength := length_taken hc
  have hle := Multiset.card_le_card hallows.1
  have hrest : s'.seat.hand.card = s.seat.hand.card - c.taken.length := by
    rw [hseat]
    exact Multiset.card_sub hallows.1
  have hnew : (ms ++ [m]).countP Meld.isNew =
      ms.countP Meld.isNew + if m.isNew = true then 1 else 0 := by
    rw [List.countP_append, List.countP_singleton]
  have hidle : s.seat.turn = .idle → s.seat.turn.extra = 1 := fun ht => by rw [ht]; rfl
  have hdrawn : (∃ x, s.seat.turn = .drawn x) → s.seat.turn.extra = 2 := by
    rintro ⟨x, ht⟩
    rw [ht]
    rfl
  rw [Multiset.coe_card] at hle
  rw [Balanced] at h ⊢
  rw [hrest, hnew, hseat]
  cases c with
  | eat S x =>
      have hturn := hidle hallows.2
      rw [if_pos (hmakes.isNew.mpr (by simp))]
      simp only [Seat.succeed, Turn.extra, Claim.size] at *
      omega
  | pon x =>
      have hturn := hidle hallows.2.1
      rw [if_pos (hmakes.isNew.mpr (by simp))]
      simp only [Seat.succeed, Turn.extra, Claim.size] at *
      omega
  | gon x =>
      have hturn := hidle hallows.2
      have hturn' := hdrawn (hkong rfl)
      omega
  | ponGon x =>
      have hturn := hdrawn (hkong rfl)
      rw [if_neg fun hm => hmakes.isNew.mp hm x rfl]
      simp only [Seat.succeed, Turn.extra, Claim.size] at *
      omega
  | anGon x =>
      have hturn := hdrawn (hkong rfl)
      rw [if_pos (hmakes.isNew.mpr (by simp))]
      simp only [Seat.succeed, Turn.extra, Claim.size] at *
      omega
  | nothing => exact absurd rfl hmakes.ne_nothing

/-- **One event** of a lawful round, with the meld that it announces. -/
theorem Inv.balanced_step [Tokenizer] (h : s.Inv) (hb : s.Balanced n ms) (hstep : Follows s e s')
    (hdeal : ∀ list, e ≠ .dealTile list) : s'.Balanced n (ms ++ e.announced.toList) := by
  have hmoves := h.moves hstep
  have hsame : s'.seat = s.seat → s'.Balanced n ms := fun hseat => by
    rwa [Balanced, hseat]
  have hmore : e.announced = none → s'.Balanced n ms →
      s'.Balanced n (ms ++ e.announced.toList) := fun hnone hb' => by
    rwa [hnone, Option.toList_none, List.append_nil]
  cases e with
  | dealTile list => exact absurd rfl (hdeal list)
  | draw tile =>
      obtain ⟨x, hturn, hseat⟩ := hmoves
      refine hmore rfl ?_
      rw [Balanced, hturn] at hb
      simp only [Balanced, hseat, Multiset.card_cons, Turn.extra]
      omega
  | throw =>
      obtain ⟨tile, hturn, hseat, -⟩ := hmoves
      refine hmore rfl ?_
      rw [Balanced, hturn] at hb
      simp only [Balanced, hseat, Turn.extra]
      omega
  | broadcastThrow i tile =>
      refine hmore rfl ?_
      rcases hmoves with hseat | ⟨x, hx, hturn, -, hseat⟩
      · exact hsame hseat
      · have hpos := Multiset.card_pos_iff_exists_mem.mpr ⟨x, hx⟩
        rw [Balanced, hturn] at hb
        simp only [Balanced, hseat, Multiset.card_erase_of_mem hx, Nat.pred_eq_sub_one, Turn.extra]
        omega
  | success command tile =>
      obtain ⟨c, hc, hseat, hanswer⟩ := hmoves
      rcases exists_makes hc with ⟨rfl, hnot⟩ | ⟨m, hm, hmakes⟩
      · exact hmore (success_of_not_isRecorded (b := s.bot) hnot).2
          (hsame (by simp [hseat, Seat.succeed, Claim.taken]))
      · rw [show (ServerEvent.success command tile).announced = some m from hm,
          Option.toList_some]
        rcases hanswer with rfl | hready
        · exact absurd rfl hmakes.ne_nothing
        · exact hb.succeed hc hmakes hready hseat
  | command | broadcastCommand | other => exact hmore rfl (hsame hmoves)

/-- No flower is dealt. -/
theorem flowers_deal [Tokenizer] {list : List (List Char)} (hstep : Follows s (.dealTile list) s') :
    s'.bot.player.Hand.flowersCards = s.bot.player.Hand.flowersCards := by
  obtain ⟨⟨ks, hks, -⟩, out, hstep⟩ := hstep
  obtain ⟨hhandle, -, -⟩ := step_eq_some hstep
  obtain ⟨hbot, -⟩ := Prod.mk.inj (Option.some.inj hhandle)
  rw [← hbot, Bot.dealTile, map_stringToCard_of_mapM hks]
  exact MJCards.flowersCards_addKinds _ ks

/-- No flower comes into the hand. -/
theorem Inv.flowers_step [Tokenizer] (h : s.Inv) (hstep : Follows s e s') :
    s'.bot.player.Hand.flowersCards = s.bot.player.Hand.flowersCards := by
  have hfollows := hstep
  obtain ⟨hlaw, out, hstep⟩ := hstep
  obtain ⟨hhandle, -, -⟩ := step_eq_some hstep
  cases e with
  | dealTile list => exact flowers_deal hfollows
  | draw tile =>
      obtain ⟨hbot, -⟩ := Prod.mk.inj (Option.some.inj hhandle)
      rw [← hbot]
  | throw =>
      have hinv := h.game.hand
      rw [Bot.throw_eq_some hhandle]
      cases hturn : s.seat.turn with
      | drawn x =>
          simp only [Game.HandInv, Play.game, hturn] at hinv
          simp only [hinv.2.2.1, hinv.2.2.2]
          exact MJCards.flowersCards_addCard _ x
      | claimed =>
          simp only [Game.HandInv, Play.game, hturn] at hinv
          simp only [hinv.2, if_true]
      | idle | kong | asked =>
          have hasks := hlaw.1
          simp [hturn, Turn.asksThrow] at hasks
  | broadcastThrow i tile =>
      obtain ⟨x, hx⟩ := Option.isSome_iff_exists.mp hlaw.1
      obtain ⟨hbot, -⟩ := Prod.mk.inj (Option.some.inj hhandle)
      rw [← hbot, Bot.broadcastThrow, stringToCard_of_tileKind hx]
      simp only
      split_ifs
      · exact MJCards.flowersCards_subCard _ x
      · rfl
  | command tiles command idx =>
      obtain ⟨place, hbot⟩ := Bot.command_eq_some hhandle
      rw [hbot]
  | success command tile =>
      obtain ⟨c, hc, -⟩ := hlaw
      obtain ⟨bot, hbot, hpair⟩ := Option.map_eq_some_iff.mp hhandle
      obtain ⟨rfl, -⟩ := Prod.mk.inj hpair
      rw [(success_spec hc hbot).1]
      exact MJCards.flowersCards_subKinds _ c.taken
  | broadcastCommand i command tile =>
      obtain ⟨bot, hbot, hpair⟩ := Option.map_eq_some_iff.mp hhandle
      obtain ⟨rfl, -⟩ := Prod.mk.inj hpair
      obtain ⟨discards, hbot⟩ := Bot.broadcastCommand_eq_some hbot
      rw [hbot]
  | other =>
      obtain ⟨hbot, -⟩ := Prod.mk.inj (Option.some.inj hhandle)
      rw [← hbot]

/-- Before the deal of a round the bot knows its hand, and there are no flowers in it. -/
theorem flowers_of_run [Tokenizer] {id : ℤ} {es : List ServerEvent} (h : Run Tracks (init id) es s)
    (hstart : es = [] ∨ ∃ list rest, es = .dealTile list :: rest) :
    s.game.Inv ∧ s.bot.player.Hand.flowersCards = 0 := by
  rcases hstart with rfl | ⟨list, rest, rfl⟩
  · rw [h.eq_of_nil]
    exact ⟨Game.inv_init id, rfl⟩
  · obtain ⟨t, hdeal, hrest⟩ := h.of_cons
    obtain ⟨hinv, hflowers⟩ := hrest.invariant
      (I := fun s => s.Inv ∧ s.bot.player.Hand.flowersCards = 0)
      (fun hs hstep => ⟨hs.1.step hstep, (hs.1.flowers_step hstep.1).trans hs.2⟩)
      ⟨inv_deal (s := init id) (Game.inv_init id) hdeal.1, flowers_deal hdeal.1⟩
    exact ⟨hinv.game, hflowers⟩

/-- **The round** up to the next deal is balanced, and there are no flowers in the hand. -/
theorem balanced_of_run [Tokenizer] {es : List ServerEvent} (h : Run Tracks s es s') (hs : s.Inv)
    (hb : s.Balanced n []) (hflowers : s.bot.player.Hand.flowersCards = 0)
    (hdeal : ∀ list, .dealTile list ∉ es) :
    s'.Inv ∧ s'.Balanced n (meldsOf es) ∧ s'.bot.player.Hand.flowersCards = 0 := by
  induction h with
  | nil => exact ⟨hs, hb, hflowers⟩
  | snoc hrun hlast ih =>
      rename_i t u es e
      obtain ⟨hinv, hbalanced, hnone⟩ := ih fun list hmem =>
        hdeal list (List.mem_append_left _ hmem)
      have hstep := hinv.balanced_step hbalanced hlast.1 fun list he =>
        hdeal list (by rw [he]; exact List.mem_append_right es List.mem_cons_self)
      rw [← meldsOf_concat] at hstep
      exact ⟨hinv.step hlast, hstep, (hinv.flowers_step hlast.1).trans hnone⟩

/-- **`Count()` of the hand** in each turn. -/
theorem Inv.count_hand (h : s.Inv) (hflowers : s.bot.player.Hand.flowersCards = 0) :
    s.bot.player.Hand.count + s.seat.turn.extra = s.seat.hand.card + s.seat.turn.surplus + 1 := by
  have hinv := h.game.hand
  cases hturn : s.seat.turn with
  | drawn x =>
      simp only [Game.HandInv, Play.game, hturn] at hinv
      have hpos := Multiset.card_pos_iff_exists_mem.mpr ⟨x, hinv.1⟩
      rw [hinv.2.1.count_eq_card hflowers, Multiset.card_erase_of_mem hinv.1, Nat.pred_eq_sub_one]
      simp only [Turn.extra, Turn.surplus]
      omega
  | claimed =>
      simp only [Game.HandInv, Play.game, hturn] at hinv
      rw [hinv.1.count_eq_card hflowers]
      simp only [Turn.extra, Turn.surplus]
      omega
  | idle | kong | asked =>
      simp only [Game.HandInv, Play.game, hturn] at hinv
      rw [hinv.count_eq_card hflowers]
      simp only [Turn.extra, Turn.surplus]
      omega

/-- **The records of a lawful round.** In a lawful game, of any number of rounds, that is
followed at the table, the records are exact after every event that follows a deal, up to
the next one, and `Player::Count` is the number of tiles dealt, with one more after a claim
and when a throw has been named. -/
theorem records_of_runs [Tokenizer] {id : ℤ} {list : List (List Char)}
    {before es : List ServerEvent}
    {s : Play} {g : TableGame}
    (hround : Run Tracks (init id) (before ++ .dealTile list :: es) s)
    (htable : Run (fun g e g' => TableGame.step g e = some g') (TableGame.init id)
      (before ++ .dealTile list :: es) g)
    (hstart : before = [] ∨ ∃ list' rest, before = .dealTile list' :: rest)
    (hdeal : ∀ list', .dealTile list' ∉ es) :
    MeldsExact s.bot.player (meldsOf es) ∧
      s.bot.player.count = list.length + s.seat.turn.surplus := by
  obtain ⟨s₀, hbefore, hround⟩ := hround.of_append
  obtain ⟨s₁, hfirst, hrest⟩ := hround.of_cons
  obtain ⟨g₀, -, htable⟩ := htable.of_append
  obtain ⟨g₁, hfirst', hrest'⟩ := htable.of_cons
  obtain ⟨hgame, hflowers⟩ := flowers_of_run hbefore hstart
  have hinv : s₁.Inv := inv_deal hgame hfirst.1
  have hflowers₁ := (flowers_deal hfirst.1).trans hflowers
  obtain ⟨⟨⟨ks, hks, h4, -⟩, out, hstep⟩, -⟩ := hfirst
  rw [step_deal hks h4] at hstep
  obtain ⟨rfl, -⟩ := Prod.mk.inj (Option.some.inj hstep)
  have hcards := map_stringToCard_of_mapM hks
  -- at the table the melds follow the rules
  have hrules : FollowsRules es := by
    obtain ⟨out', t, -, hrecord, hseat, htable₁, -⟩ := TableGame.exists_record hfirst'
    obtain rfl := Option.some.inj hrecord
    refine (TableGame.accounts_of_run hrest' (Table.Accounts.init ?_ ?_) hdeal).2
    · simp only [Seat.next, hks, h4, implies_true, if_true] at hseat
      rw [← Option.some.inj hseat]
    · rw [htable₁]
  have hbots : Run Bot.Handles (s₀.bot.dealTile list) es s.bot :=
    hrest.map Play.bot fun hstep => by
      obtain ⟨⟨-, out, hstep⟩, -⟩ := hstep
      exact ⟨out, (step_eq_some hstep).1⟩
  have hexact : MeldsExact s.bot.player (meldsOf es) :=
    meldsExact_of_recorded (recorded_of_run hbots hrules) hrules.melds
  -- and along the round they balance the hand
  obtain ⟨hend, hbalanced, hnone⟩ := balanced_of_run (n := list.length) hrest hinv
    (by simpa [Balanced, Turn.extra] using (congrArg List.length hcards).symm) hflowers₁ hdeal
  refine ⟨hexact, ?_⟩
  have hcount := hend.count_hand hnone
  rw [Balanced] at hbalanced
  rw [hexact.count]
  omega

section

open Words

/-- A run has been claimed: it is recorded, and the bot has a tile too many. -/
theorem records_of_runs_claim : ∃ s : Play, s.seat.turn.asksThrow = true ∧
    MeldsExact s.bot.player [.run 0 (by decide)] ∧
      s.bot.player.count = 4 + s.seat.turn.surplus := by
  obtain ⟨s₁, s, hfirst, hrun, hlaw⟩ := exists_claimRun
  have hround : Run Tracks (init 7) ([] ++ .dealTile claimDeal :: claimEvents) s :=
    hfirst.append hrun
  have htable : ((ServerEvent.dealTile claimDeal :: claimEvents).foldlM TableGame.step
      (TableGame.init 7)).isSome = true := by decide +kernel
  obtain ⟨g, hg⟩ := Option.isSome_iff_exists.mp htable
  have hmelds : meldsOf claimEvents = [.run 0 (by decide)] := by decide +kernel
  obtain ⟨hexact, hcount⟩ :=
    records_of_runs hround (run_iff_foldlM.mpr hg) (Or.inl rfl)
      fun list => by simp [claimEvents]
  exact ⟨s, hlaw.1, hmelds ▸ hexact, hcount⟩

end

end Play

end MahjongAI
