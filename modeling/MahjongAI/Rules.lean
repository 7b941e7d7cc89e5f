import MahjongAI.EatChoice
import MahjongAI.JsonRoundTrip
import MahjongAI.KongChoice
import MahjongAI.MeldRecords

/-!
# A Round by the Rules

The server runs the game and the bot answers. `Play` is the bot at its seat together with
the claim that its last answer made; a claim lapses with the next tile that is drawn or
thrown. `Lawful` says what a server that keeps the rules may send: it offers the win when
the hand is complete, it offers the kongs that can be declared, it offers a claim only of
tiles that are there, and it carries out no claim of the bot but the one that was made.
Nothing in it speaks about what the bot answers.

`Legal` is what the answers should be. A throw names a tile of the hand that costs no step.
The answer to a command takes the win if it is offered, else a claim that was offered and
that pays, and passes only where no offered claim pays but the kong of a thrown tile:
`WannaHGPE` is told of `COMMAND_GON` and never makes it.

A server that keeps the rules may carry out a kong that the bot declares on a draw and that is
not of the drawn tile. The handlers then drop the drawn tile, and the bot no longer knows its
hand. The rounds of the results below are those in which this does not happen (`Tracks`).

The text of a `sendCommand` message is put together by hand in `main.cpp`; it is the text
that a JSON writer produces, and is read with the JSON reader.

## Main results

* `readCommand_commandText`: reading the text of an answer gives its command and its tile.
-/

open Runs Packed

namespace MahjongAI

/-! ### Texts -/

/-- The kind of a tile. -/
def kindOf (card : MJCard) : Option Kind :=
  (List.finRange 34).find? fun k => cardOf k = card

theorem kindOf_cardOf : ∀ x : Kind, kindOf (cardOf x) = some x := by
  decide +kernel

/-- Every kind has a text, which names it and needs no escapes. -/
theorem exists_text (x : Kind) : ∃ tile, (cardOf x).toString = some tile ∧
    tileKind tile = some x ∧ tile.flatMap Json.writeChar = tile := by
  have htexts : ∀ y : Kind, (cardOf y).toString.bind tileKind = some y ∧
      (cardOf y).toString.map (List.flatMap Json.writeChar) = (cardOf y).toString := by
    decide +kernel
  obtain ⟨tile, htile, hkind⟩ := Option.bind_eq_some_iff.mp (htexts x).1
  have hplain := (htexts x).2
  rw [htile] at hplain
  exact ⟨tile, htile, hkind, Option.some.inj hplain⟩

/-- The object in the text of a `sendCommand` message. -/
def commandValue (c : CommandType) (tile : List Char) : Json.Value :=
  .object [("Command".toList, .number c.code), ("Tile".toList, .string tile),
    ("Score".toList, .number 0)]

/-- The command and the tile of a `sendCommand` message. -/
def readCommand (text : List Char) : Option (ℤ × List Char) :=
  match Json.document text with
  | some (.object members) =>
      match members.lookup "Command".toList, members.lookup "Tile".toList with
      | some (.number command), some (.string tile) => some (command, tile)
      | _, _ => none
  | _ => none

/-- The text of an answer is what a writer makes of its object. -/
theorem commandText_eq_write (dtoa : Float → List Char) (c : CommandType) {tile : List Char}
    (h : tile.flatMap Json.writeChar = tile) :
    commandText c tile = Json.write dtoa (commandValue c tile) := by
  obtain ⟨hcommand, htile, hscore, hzero⟩ :
      Json.writeString "Command".toList = "\"Command\"".toList ∧
      Json.writeString "Tile".toList = "\"Tile\"".toList ∧
      Json.writeString "Score".toList = "\"Score\"".toList ∧ Json.writeInt 0 = ['0'] := by
    decide +kernel
  obtain ⟨hopen, hmiddle, hclose⟩ :
      "\x7b\"Command\":".toList = '\x7b' :: ("\"Command\"".toList ++ [':']) ∧
      ",\"Tile\":\"".toList = ',' :: ("\"Tile\"".toList ++ [':', '"']) ∧
      "\",\"Score\":0\x7d".toList =
        '"' :: ',' :: ("\"Score\"".toList ++ [':', '0', '\x7d']) := by
    decide +kernel
  have hcode : Json.writeInt (c.code : ℤ) = Nat.toDigits 10 c.code := by
    rw [Json.writeInt, if_neg (by omega), Int.natAbs_natCast]
  have htext : Json.writeString tile = '"' :: (tile ++ ['"']) := by
    rw [Json.writeString, h]
  delta commandText commandValue
  rw [hopen, hmiddle, hclose]
  simp only [Json.write, Json.writeMembers, hcommand, htile, hscore, hzero, hcode, htext]
  -- the names are the same on both sides: only the lists around them are put in order
  generalize "\"Command\"".toList = command
  generalize "\"Tile\"".toList = name
  generalize "\"Score\"".toList = score
  simp

/-- **The text of an answer** reads back as its command and its tile. -/
theorem readCommand_commandText (c : CommandType) {tile : List Char}
    (h : tile.flatMap Json.writeChar = tile) :
    readCommand (commandText c tile) = some ((c.code : ℤ), tile) := by
  have hplain : (commandValue c tile).Plain := by
    have hcode : c.code < 2 ^ 63 := by cases c <;> decide
    exact ⟨⟨by omega, by omega⟩, trivial, ⟨by norm_num, by norm_num⟩, trivial⟩
  rw [readCommand, commandText_eq_write (fun _ => []) c h, Json.document_write _ hplain]
  rfl

/-! ### The round -/

/-- A complete hand, of any size. -/
def Complete (H : Multiset Kind) : Prop :=
  ∃ k, CompleteHand k H

/-- The bot at its seat, and the claim that its last answer made. -/
structure Play where
  bot : Bot
  seat : Seat
  answer : Option Claim

/-- The claim that a message of the bot makes. The answer to a run claim names the lowest
tile of the run; the claimed tile is the one thrown. -/
def claimOf [Tokenizer] (b : Bot) : List Emit → Option Claim
  | [.sendCommand text] =>
      (readCommand text).bind fun (command, tile) =>
        if command = CommandType.eat.code then
          match tileKind tile, kindOf b.throwTile with
          | some y, some x => some (.eat ([y, y + 1, y + 2].erase x) x)
          | _, _ => none
        else Claim.read command tile
  | _ => none

namespace Play

/-- Before the first deal. -/
def init (id : ℤ) : Play :=
  ⟨Bot.init id, ⟨0, 0, .idle⟩, none⟩

/-- The bot at its seat. -/
def game (s : Play) : Game :=
  ⟨s.bot, s.seat⟩

/-- The claim that may be carried out after an event: a claim lapses with the next tile
that is drawn or thrown, and is carried out once. -/
def answerAfter [Tokenizer] (s : Play) (out : List Emit) : ServerEvent → Option Claim
  | .command _ _ _ => claimOf s.bot out
  | .broadcastCommand _ _ _ | .other => s.answer
  | _ => none

/-- One event, with the messages of the bot: the handler runs, and the rules allow the
event. -/
def step [Tokenizer] (s : Play) (e : ServerEvent) : Option (Play × List Emit) :=
  match s.bot.handle e with
  | none => none
  | some (bot, out) =>
      (s.seat.next s.bot.player.id out e).map fun seat => (⟨bot, seat, s.answerAfter out e⟩, out)

/-! ### The server -/

/-- A question about the bot's own draw: the win is offered when the hand is complete, a
concealed kong when there are four of a kind, the kong of a melded triplet when its fourth
tile is there, and a kong comes with its tile. -/
structure DrawOffer (s : Play) (tiles : List (ℤ × List (List Char))) (command : ℕ) : Prop where
  drawn : ∃ x, s.seat.turn = .drawn x
  zimo : Bot.hasBit command .zimo = true ↔ Complete s.seat.hand
  anGon : Bot.hasBit command .anGon = true ↔ ∃ x, s.seat.hand.count x = 4
  ponGon : Bot.hasBit command .ponGon = true ↔ ∃ x ∈ s.seat.pons, x ∈ s.seat.hand
  tiles : Bot.gonTileExists tiles command = true

/-- A question about a thrown tile, which is one of the four of its kind: a run claim is
offered for the tiles of some run, a triplet claim for a pair. -/
structure ClaimOffer (s : Play) (command : ℕ) : Prop where
  idle : s.seat.turn = .idle
  thrown : ∃ x, s.bot.throwTile = cardOf x ∧
    s.seat.hand.count x + 3 * s.seat.pons.count x < 4 ∧
      (Bot.hasBit command .eat = true → x.val < 27 ∧ ∃ d S, EatOption x d S ∧ S ≤ s.seat.hand) ∧
        (Bot.hasBit command .pon = true → 2 ≤ s.seat.hand.count x)

/-- What a server that keeps the rules may send. A complete hand is won before it is asked
to throw. -/
def Lawful [Tokenizer] (s : Play) : ServerEvent → Prop
  | .dealTile list => ∃ ks : List Kind, list.mapM tileKind = some ks ∧ (∀ x, ks.count x ≤ 4) ∧
      ∃ k ≤ 5, ks.length = 3 * k + 1
  | .draw tile => ∃ x, tileKind tile = some x ∧ (s.seat.turn = .idle ∨ s.seat.turn = .kong) ∧
      s.seat.hand.count x + 3 * s.seat.pons.count x < 4
  | .throw => s.seat.turn.asksThrow = true ∧ ¬Complete s.seat.hand
  | .broadcastThrow i tile =>
      (tileKind tile).isSome = true ∧ (i = s.bot.player.id → s.seat.turn = .asked tile)
  | .command tiles command _ =>
      if Bot.isOwnCommand command then s.DrawOffer tiles command else s.ClaimOffer command
  | .success command tile => ∃ c, Claim.read command tile = some c ∧
      (c = .nothing ∨ s.answer = some c)
  | .broadcastCommand i command tile =>
      i = s.bot.player.id ∨ (Claim.read command tile).isSome = true
  | .other => True

/-- A step of a lawful round. -/
def Follows [Tokenizer] (s : Play) (e : ServerEvent) (s' : Play) : Prop :=
  s.Lawful e ∧ ∃ out, s.step e = some (s', out)

/-- A step of a lawful round in which the bot keeps track of its hand: a kong declared on a
draw, if it is carried out, is of the drawn tile. No rule asks for this, and the bot declares
other kongs too. -/
def Tracks [Tokenizer] (s : Play) (e : ServerEvent) (s' : Play) : Prop :=
  s.Follows e s' ∧ KongOnDrawn s.seat e

/-- A state of a lawful round that the bot has kept track of: it began with a deal. -/
def Reached [Tokenizer] (id : ℤ) (s : Play) : Prop :=
  ∃ list es, Run Tracks (init id) (.dealTile list :: es) s

/-! ### The answers -/

/-- A claim that the rules allow and that helps: a claimed run or triplet is a step forward,
a kong is no step back. -/
def Pays (s : Seat) (c : Claim) : Prop :=
  s.Allows c ∧ handSteps (s.hand - c.taken) = handSteps s.hand - if c.isMeld then 1 else 0

/-- A claim that a command offers. -/
def Offered (s : Play) (command : ℕ) : Claim → Prop
  | .eat S x => Bot.hasBit command .eat = true ∧ s.bot.throwTile = cardOf x ∧ ∃ d, EatOption x d S
  | .pon x => Bot.hasBit command .pon = true ∧ s.bot.throwTile = cardOf x
  | .gon x => Bot.hasBit command .gon = true ∧ s.bot.throwTile = cardOf x
  | .anGon _ => Bot.hasBit command .anGon = true
  | .ponGon _ => Bot.hasBit command .ponGon = true
  | .nothing => False

/-- An answer to a command and the claim it makes: the win if it is offered, else a claim
that was offered and pays, but never the kong of a thrown tile; and nothing only where no
other offered claim pays. -/
structure Answers (s : Play) (command : ℕ) (c : CommandType) (claim : Claim) : Prop where
  offered : c = .none ∨ Bot.hasBit command c = true
  zimo : Bot.hasBit command .zimo = true → c = .zimo
  hu : Bot.isOwnCommand command = false → Bot.hasBit command .hu = true → c = .hu
  pays : claim = .nothing ∨ s.Offered command claim ∧ Pays s.seat claim
  gon : ∀ x, claim ≠ .gon x
  passes : c = .none → ∀ claim', s.Offered command claim' → Pays s.seat claim' →
    ∃ x, claim' = .gon x

/-- What the bot should send. -/
def Legal [Tokenizer] (s : Play) (out : List Emit) : ServerEvent → Prop
  | .throw => ∃ tile x, out = [.throwTile tile] ∧ tileKind tile = some x ∧ x ∈ s.seat.hand ∧
      handSteps (s.seat.hand.erase x) = handSteps s.seat.hand
  | .command _ command _ => ∃ c tile claim, out = [.sendCommand (commandText c tile)] ∧
      claimOf s.bot out = some claim ∧ s.Answers command c claim
  | _ => out = []

end Play

end MahjongAI
