import MahjongAI.Decisions

/-!
# The Event Handlers

The socket handlers of `main.cpp` as one function `Bot.handle` on the state that they
share: the player and the globals `drawTile`, `throwTile` and `onlyThrow`. A drawn tile
stays in `drawTile` until the `throw` handler adds it to the hand; the thrown tiles leave
the hand with their own announcement (`broadcastThrow`), the claimed and konged ones with
`success`; the tiles that everybody can see are collected in `discards`.

A handler yields the messages it emits, or nothing at all where the source reads a vector
or a string at a place that does not exist.

## Main results

* `Bot.throw_eq_some`, `Bot.command_eq_some`, `Bot.broadcastCommand_eq_some`: the one part of
  the state that each of these handlers changes.
-/

namespace MahjongAI

/-- `CardTo63`: the unit of a run's counter in the run mask. -/
def cardTo63 (card : MJCard) : BitVec 64 :=
  if card.color = 0 then 1 <<< (card.value.toNat * 3)
  else if card.color = 1 then 1 <<< (21 + card.value.toNat * 3)
  else if card.color = 2 then 1 <<< (42 + card.value.toNat * 3)
  else -1

/-- `boost::tokenizer<>`, which is no part of the repository: the tokens of a text. -/
class Tokenizer where
  tokens : List Char → List (List Char)

export Tokenizer (tokens)

namespace Words

/-- The words between commas, which is what `boost::tokenizer<>` makes of tile names and commas. -/
scoped instance words : Tokenizer where
  tokens s := (s.splitOnP fun c => c = ',').filter fun t => t ≠ []

end Words

namespace MJCards

/-- `+=` in a loop over tiles. -/
def addCards (s : MJCards) (cards : List MJCard) : MJCards :=
  cards.foldl addCard s

/-- `-=` in a loop over tiles. -/
def subCards (s : MJCards) (cards : List MJCard) : MJCards :=
  cards.foldl subCard s

/-- The loop `s[i] = 0` over the words `0` to `4`; the flowers stay. -/
def clearWords (s : MJCards) : MJCards :=
  [0, 1, 2, 3, 4].foldl (fun s i => s.set i 0) s

/-- The words of a cleared card set. -/
theorem get_clearWords (s : MJCards) {c : ℤ} (h0 : 0 ≤ c) (h5 : c ≤ 5) :
    s.clearWords.get c = if c = 5 then s.get 5 else 0 := by
  have hcases : c = 0 ∨ c = 1 ∨ c = 2 ∨ c = 3 ∨ c = 4 ∨ c = 5 := by omega
  rcases hcases with rfl | rfl | rfl | rfl | rfl | rfl <;>
    simp [clearWords, get_set]

/-- Clearing the words `0` to `4` leaves the flowers and counts no other tile. -/
theorem countCard_clearWords (s : MJCards) {card : MJCard} (h : card.Valid) :
    s.clearWords.countCard card = if card.color = 5 then s.countCard card else 0 := by
  rw [countCard_eq _ h, countCard_eq _ h, get_clearWords s h.1 h.2.1]
  by_cases h5 : card.color = 5
  · rw [if_pos h5, if_pos h5, h5]
  · rw [if_neg h5, if_neg h5, Packed.field_zero]

end MJCards

/-- The state of the handlers: the player and the globals of `main.cpp`. -/
structure Bot where
  player : Irb00
  drawTile : MJCard
  throwTile : MJCard
  onlyThrow : Bool

/-- What the server sends. `command` carries the tiles of its commands under the numbers
that `stoi` reads off the keys; `other` stands for the events whose handlers do nothing. -/
inductive ServerEvent
  | dealTile (list : List (List Char))
  | draw (tile : List Char)
  | throw
  | broadcastThrow (id : ℤ) (tile : List Char)
  | command (tiles : List (ℤ × List (List Char))) (command : ℕ) (idx : ℤ)
  | success (command : ℤ) (tile : List Char)
  | broadcastCommand (id : ℤ) (command : ℤ) (tile : List Char)
  | other

/-- What the bot sends. -/
inductive Emit
  | throwTile (tile : List Char)
  | sendCommand (text : List Char)
  deriving DecidableEq

/-- The text of a `sendCommand` message. -/
def commandText (c : CommandType) (tile : List Char) : List Char :=
  "\x7b\"Command\":".toList ++ Nat.toDigits 10 c.code ++ ",\"Tile\":\"".toList ++ tile ++
    "\",\"Score\":0\x7d".toList

/-- The tiles of a claimed run other than the claimed one: the loop over the three tiles
from `firstTile` that skips the value of `centerTile`. -/
def runOthers (firstTile centerTile : MJCard) : List MJCard :=
  (List.range 3).filterMap fun i : ℕ =>
    if firstTile.value + i ≠ centerTile.value then
      some ⟨firstTile.color, firstTile.value + i⟩
    else none

namespace Bot

/-- The state before the first event. -/
def init (id : ℤ) : Bot where
  player :=
    { Hand := .make false, discards := .make false, eat := 0, pon := 0, gon := 0, anGon := 0,
      id := id, pickToEat := 0 }
  drawTile := .none
  throwTile := .none
  onlyThrow := false

/-- The `dealTile` handler. -/
def dealTile (b : Bot) (list : List (List Char)) : Bot :=
  { b with
    player :=
      { b.player with
        Hand := b.player.Hand.clearWords.addCards (list.map stringToCard)
        discards := b.player.discards.clearWords
        eat := 0, pon := 0, gon := 0, anGon := 0 } }

/-- The argument of `Throw` in the `throw` handler. -/
def throwArg (b : Bot) : MJCard :=
  if b.onlyThrow then noCard else b.drawTile

/-- The `throw` handler. -/
def throw (b : Bot) : Option (Bot × List Emit) :=
  match b.player.throw b.throwArg with
  | none => none
  | some card =>
      match card.toString with
      | none => none
      | some tile =>
          let Hand :=
            if b.onlyThrow then b.player.Hand else b.player.Hand.addCard b.drawTile
          some ({ b with player := { b.player with Hand := Hand } }, [.throwTile tile])

/-- The `broadcastThrow` handler. -/
def broadcastThrow (b : Bot) (id : ℤ) (tile : List Char) : Bot :=
  let card := stringToCard tile
  { b with
    throwTile := card
    player :=
      { b.player with
        discards := b.player.discards.addCard card
        Hand := if id = b.player.id then b.player.Hand.subCard card else b.player.Hand } }

/-- A command word has one of the bits of `c`. -/
def hasBit (command : ℕ) (c : CommandType) : Bool :=
  command &&& c.code ≠ 0

/-- The command asks about the bot's own draw. -/
def isOwnCommand (command : ℕ) : Bool :=
  hasBit command .zimo || hasBit command .anGon || hasBit command .ponGon

/-- The tiles that a command offers for a kong: `commandTile[c][0]` must exist. -/
def gonTileExists (tiles : List (ℤ × List (List Char))) (command : ℕ) : Bool :=
  let first (c : CommandType) : Bool :=
    match tiles.lookup (c.code : ℤ) with
    | some (_ :: _) => true
    | _ => false
  if hasBit command .anGon then first .anGon
  else if hasBit command .ponGon then first .ponGon
  else true

/-- The `command` handler. -/
def command (b : Bot) (tiles : List (ℤ × List (List Char))) (command : ℕ) :
    Option (Bot × List Emit) :=
  if isOwnCommand command then
    if gonTileExists tiles command then
      match b.player.wannaHuGon (hasBit command .zimo)
          (hasBit command .anGon || hasBit command .ponGon) b.drawTile with
      | none => none
      | some (c, card) =>
          match card.toString with
          | none => none
          | some tile => some (b, [.sendCommand (commandText c tile)])
    else none
  else
    let (c, player) := b.player.wannaHGPE (hasBit command .hu) (hasBit command .pon)
      (hasBit command .eat) b.throwTile
    let card : MJCard :=
      if c = .eat then
        if player.pick2Eat = 0 then { b.throwTile with value := b.throwTile.value - 2 }
        else if player.pick2Eat = 1 then { b.throwTile with value := b.throwTile.value - 1 }
        else b.throwTile
      else b.throwTile
    match card.toString with
    | none => none
    | some tile => some ({ b with player := player }, [.sendCommand (commandText c tile)])

/-- The loop of the `success` handler that moves tiles from the hand to the discards. -/
def expose (p : Irb00) (cards : List MJCard) : Irb00 :=
  { p with Hand := p.Hand.subCards cards, discards := p.discards.addCards cards }

/-- The `success` handler: the bot's own claim or kong was carried out. -/
def success [Tokenizer] (b : Bot) (command : ℤ) (tileStr : List Char) : Option Bot :=
  let tile := stringToCard tileStr
  if command = CommandType.eat.code then
    match tokens tileStr with
    | first :: center :: _ =>
        let firstTile := stringToCard first
        let p := expose b.player (runOthers firstTile (stringToCard center))
        some { b with onlyThrow := true, player := { p with eat := p.eat + cardTo63 firstTile } }
    | _ => none
  else if command = CommandType.pon.code then
    let p := expose b.player (List.replicate 2 tile)
    some { b with onlyThrow := true, player := { p with pon := p.pon ||| cardTo34 tile } }
  else if command = CommandType.gon.code then
    let p := expose b.player (List.replicate 3 tile)
    some { b with player := { p with gon := p.gon ||| cardTo34 tile } }
  else if command = CommandType.ponGon.code then
    let p := expose b.player (List.replicate 1 tile)
    some { b with
      player := { p with pon := p.pon - cardTo34 tile, gon := p.gon ||| cardTo34 tile } }
  else if command = CommandType.anGon.code then
    some { b with
      player :=
        { b.player with
          Hand := b.player.Hand.subCards (List.replicate 4 tile)
          anGon := b.player.anGon ||| cardTo34 tile } }
  else some b

/-- The `broadcastCommand` handler: somebody else's claim or kong was carried out. -/
def broadcastCommand [Tokenizer] (b : Bot) (id : ℤ) (command : ℤ) (tileStr : List Char)
    : Option Bot :=
  let tile := stringToCard tileStr
  let see (cards : List MJCard) : Bot :=
    { b with player := { b.player with discards := b.player.discards.addCards cards } }
  if id = b.player.id then some b
  else if command = CommandType.eat.code then
    match tokens tileStr with
    | first :: center :: _ => some (see (runOthers (stringToCard first) (stringToCard center)))
    | _ => none
  else if command = CommandType.pon.code then some (see (List.replicate 2 tile))
  else if command = CommandType.gon.code then some (see (List.replicate 3 tile))
  else if command = CommandType.ponGon.code then some (see (List.replicate 1 tile))
  else some b

/-- The handler of an event. -/
def handle [Tokenizer] (b : Bot) : ServerEvent → Option (Bot × List Emit)
  | .dealTile list => some (b.dealTile list, [])
  | .draw tile => some ({ b with drawTile := stringToCard tile, onlyThrow := false }, [])
  | .throw => b.throw
  | .broadcastThrow id tile => some (b.broadcastThrow id tile, [])
  | .command tiles command _ => b.command tiles command
  | .success command tile => (b.success command tile).map fun b => (b, [])
  | .broadcastCommand id command tile =>
      (b.broadcastCommand id command tile).map fun b => (b, [])
  | .other => some (b, [])

/-! ### What the handlers change -/

/-- A throw request changes nothing but the hand. -/
theorem throw_eq_some {b b' : Bot} {out : List Emit} (h : b.throw = some (b', out)) :
    b' = { b with
      player :=
        { b.player with
          Hand := if b.onlyThrow then b.player.Hand else b.player.Hand.addCard b.drawTile } } := by
  rw [Bot.throw] at h
  split at h
  · exact absurd h (by simp)
  · split at h
    · exact absurd h (by simp)
    · exact (Prod.mk.inj (Option.some.inj h)).1.symm

/-- A command request changes nothing but the place of a run claim. -/
theorem command_eq_some {b b' : Bot} {tiles : List (ℤ × List (List Char))} {command : ℕ}
    {out : List Emit} (h : b.command tiles command = some (b', out)) :
    ∃ place : ℤ, b' = { b with player := { b.player with pickToEat := place } } := by
  rw [Bot.command] at h
  split at h
  · split at h
    · split at h
      · exact absurd h (by simp)
      · split at h
        · exact absurd h (by simp)
        · obtain ⟨rfl, -⟩ := Prod.mk.inj (Option.some.inj h)
          exact ⟨b.player.pickToEat, rfl⟩
    · exact absurd h (by simp)
  · have hplayer : ∀ (canHu canPon canEat : Bool) (card : MJCard), ∃ place : ℤ,
        (b.player.wannaHGPE canHu canPon canEat card).2 =
          { b.player with pickToEat := place } := by
      intro canHu canPon canEat card
      rw [Irb00.wannaHGPE]
      split_ifs <;> exact ⟨_, rfl⟩
    simp only at h
    split at h
    · exact absurd h (by simp)
    · obtain ⟨rfl, -⟩ := Prod.mk.inj (Option.some.inj h)
      obtain ⟨place, hplace⟩ := hplayer (hasBit command .hu) (hasBit command .pon)
        (hasBit command .eat) b.throwTile
      exact ⟨place, by rw [hplace]⟩

/-- A claim of somebody else changes nothing but the discards. -/
theorem broadcastCommand_eq_some [Tokenizer] {b b' : Bot} {id command : ℤ} {tile : List Char}
    (h : b.broadcastCommand id command tile = some b') :
    ∃ discards, b' = { b with player := { b.player with discards := discards } } := by
  rw [Bot.broadcastCommand] at h
  split_ifs at h
  · exact ⟨b.player.discards, (Option.some.inj h).symm⟩
  · split at h
    · exact ⟨_, (Option.some.inj h).symm⟩
    · exact absurd h (by simp)
  · exact ⟨_, (Option.some.inj h).symm⟩
  · exact ⟨_, (Option.some.inj h).symm⟩
  · exact ⟨_, (Option.some.inj h).symm⟩
  · exact ⟨b.player.discards, (Option.some.inj h).symm⟩

end Bot

end MahjongAI
