import MahjongAI.EndpointRuns
import MahjongAI.Progress

/-!
# The Program

What `main.cpp` binds to its socket, on the messages as the socket hands them over: the
listeners read their arguments and call the handlers of `Game`, and the callbacks of
`join` and `ready` take the names that the server gives. Reading an argument that is
missing or of another kind is the end of the program, as is a key of a command that is no
number.

## Main results

* `Program.run_handshake`: the bot signs in with the names that it was given.
* `Program.answers_of_round`: when what comes in is a round by the rules, the program reads
  all of it, and sends the legal answers.
-/

open Runs

namespace MahjongAI

/-! ### Reading arguments -/

namespace Message

/-- `get_string`, whose base version is a failed assertion. -/
def getString : Message → Option (List Char)
  | .string s => some s
  | _ => none

/-- `get_int`. -/
def getInt : Message → Option ℤ
  | .int n => some n
  | _ => none

/-- `get_vector`. -/
def getVector : Message → Option (List Message)
  | .array elements => some elements
  | _ => none

/-- `get_map`. -/
def getMap : Message → Option (List (List Char × Message))
  | .object members => some members
  | _ => none

end Message

/-- `std::isspace`. -/
def isSpace (c : Char) : Bool :=
  c = ' ' ∨ 9 ≤ c.toNat ∧ c.toNat ≤ 13

/-- `std::stoi`: a number at the beginning of the text, in the range of an `int`. -/
def stoi (s : List Char) : Option ℤ :=
  let digits (s : List Char) : Option ℤ :=
    let ds := s.takeWhile Char.isDigit
    if ds = [] then none else some (Nat.ofDigitChars 10 ds 0)
  let value :=
    match s.dropWhile isSpace with
    | '-' :: s => (digits s).map (- ·)
    | '+' :: s => digits s
    | s => digits s
  value.filter fun n => -2 ^ 31 ≤ n ∧ n < 2 ^ 31

/-- The events to which `bind_events` binds a listener. -/
inductive Handler
  | readyToStart
  | dealTile
  | draw
  | throw
  | broadcastThrow
  | command
  | success
  | broadcastCommand
  /-- A listener that does nothing: `broadcastOpenDoor`, `broadcastWindAndRound`,
  `broadcastBuHua`, `broadcastHua` and `end`. -/
  | idle
  deriving DecidableEq

/-- `bind_events`. -/
def bindEvents (name : List Char) : Option Handler :=
  [("readyToStart".toList, Handler.readyToStart), ("broadcastOpenDoor".toList, .idle),
    ("broadcastWindAndRound".toList, .idle), ("dealTile".toList, .dealTile),
    ("broadcastBuHua".toList, .idle), ("broadcastHua".toList, .idle), ("draw".toList, .draw),
    ("throw".toList, .throw), ("broadcastThrow".toList, .broadcastThrow),
    ("command".toList, .command), ("success".toList, .success),
    ("broadcastCommand".toList, .broadcastCommand), ("end".toList, .idle)].lookup name

/-- The `commandTile` map of the `command` handler: a key may come again in another
spelling, and the last one counts. -/
def commandTiles (members : List (List Char × Message)) :
    Option (List (ℤ × List (List Char))) :=
  (members.mapM fun m : List Char × Message => do
    let tiles ← (← m.2.getVector).mapM Message.getString
    return (← stoi m.1, tiles)).map List.reverse

/-- What a listener reads from its arguments, for the player with the number `id`. -/
def readEvent (id : ℤ) (data : List Message) : Handler → Option ServerEvent
  | .readyToStart => none
  | .dealTile => do
      let list ← (← (← data[0]?).getVector).mapM Message.getString
      return .dealTile list
  | .draw => do return .draw (← (← data[0]?).getString)
  | .throw => some .throw
  | .broadcastThrow => do
      return .broadcastThrow (← (← data[0]?).getInt) (← (← data[1]?).getString)
  | .command => do
      let tiles ← commandTiles (← (← data[0]?).getMap)
      let command ← (← data[1]?).getInt
      let idx ← (← data[2]?).getInt
      return .command tiles (command % 2 ^ 32).toNat (Json.wrap32 idx)
  | .success => do
      return .success (Json.wrap32 (← (← data[1]?).getInt)) (← (← data[2]?).getString)
  | .broadcastCommand => do
      let i ← (← data[1]?).getInt
      if i = id then return .other
      else
        return .broadcastCommand i (Json.wrap32 (← (← data[2]?).getInt)) (← (← data[3]?).getString)
  | .idle => some .other

/-! ### The program -/

/-- The callbacks that `main.cpp` passes to `emit`. -/
inductive Callback
  | join
  | ready
  deriving DecidableEq

/-- How far `main` has come. -/
inductive Stage
  | connecting
  /-- The events are bound. -/
  | bound
  /-- `join` is emitted; the rest is an empty loop. -/
  | joined
  deriving DecidableEq

/-- The globals of `main.cpp`. -/
structure Program where
  bot : Bot
  uuid : List Char
  room : List Char
  stage : Stage

/-- What comes to the program: `main` binds the events, and emits `join` with a fresh name;
an event; a callback. -/
inductive Input
  | bind
  | join (name : List Char)
  | event (name : List Char) (data : List Message)
  | ack (c : Callback) (args : List Message)

/-- An emit on the root socket. -/
abbrev Sent := Emission Unit Callback

/-- A message of the bot. -/
def Emit.sent : Emit → Sent
  | .throwTile tile => ⟨(), "throwTile".toList, [.string tile], none⟩
  | .sendCommand text => ⟨(), "sendCommand".toList, [.string text], none⟩

namespace Program

/-- Before anything has come in; `id` is what is in the memory of the player. -/
def init (id : ℤ) : Program :=
  ⟨Bot.init id, [], [], .connecting⟩

/-- The emit of `main`. -/
def join (name : List Char) : Sent :=
  ⟨(), "join".toList, [.string ("bot-".toList ++ name)], some .join⟩

/-- The emits of the `readyToStart` listener. -/
def signIn (uuid room : List Char) : List Sent :=
  [⟨(), "auth".toList, [.string uuid, .string room], none⟩,
    ⟨(), "ready".toList, [.string uuid, .string room], some .ready⟩]

/-- A listener is called. -/
def listen [Tokenizer] (p : Program) (data : List Message) : Handler → Option (Program × List Sent)
  | .readyToStart => do
      let room ← (← data[0]?).getString
      return ({ p with room := room }, signIn p.uuid room)
  | h => do
      let (bot, out) ← p.bot.handle (← readEvent p.bot.player.id data h)
      return ({ p with bot := bot }, out.map Emit.sent)

/-- A callback is called. -/
def called (p : Program) (args : List Message) : Callback → Option Program
  | .join => do return { p with uuid := ← (← args[0]?).getString }
  | .ready => do
      let id ← (← args[0]?).getInt
      return { p with bot := { p.bot with player := { p.bot.player with id := Json.wrap32 id } } }

/-- One input, with what the program sends. No listener is called before the events are
bound. -/
def step [Tokenizer] (p : Program) : Input → Option (Program × List Sent)
  | .bind => if p.stage = .connecting then some ({ p with stage := .bound }, []) else none
  | .join name => if p.stage = .bound then some ({ p with stage := .joined }, [join name]) else none
  | .event name data =>
      if p.stage = .connecting then some (p, [])
      else
        match bindEvents name with
        | some h => p.listen data h
        | none => some (p, [])
  | .ack c args => (p.called args c).map (·, [])

/-- The inputs in their order, with all that the program sends. -/
def run [Tokenizer] (p : Program) : List Input → Option (Program × List Sent)
  | [] => some (p, [])
  | i :: is => do
      let (p, out) ← p.step i
      let (p, outs) ← p.run is
      return (p, out ++ outs)

/-! ### Runs of the program -/

theorem run_cons [Tokenizer] {p p₁ p₂ : Program} {i : Input} {is : List Input}
    {out outs : List Sent}
    (hstep : p.step i = some (p₁, out)) (hrun : p₁.run is = some (p₂, outs)) :
    p.run (i :: is) = some (p₂, out ++ outs) := by
  simp [run, hstep, hrun]

theorem run_append [Tokenizer] {p p₁ p₂ : Program} {is js : List Input} {out outs : List Sent}
    (h : p.run is = some (p₁, out)) (h' : p₁.run js = some (p₂, outs)) :
    p.run (is ++ js) = some (p₂, out ++ outs) := by
  induction is generalizing p out with
  | nil =>
      obtain ⟨rfl, rfl⟩ := Prod.mk.inj (Option.some.inj h)
      exact h'
  | cons i is ih =>
      simp only [run, Option.bind_eq_bind, Option.bind_eq_some_iff] at h
      obtain ⟨⟨q, first⟩, hstep, ⟨r, rest⟩, hrun, heq⟩ := h
      obtain ⟨rfl, rfl⟩ := Prod.mk.inj (Option.some.inj heq)
      rw [List.append_assoc]
      exact run_cons hstep (ih hrun)

/-- A run stops on the way. -/
theorem exists_of_run_append [Tokenizer] {p p₂ : Program} {is js : List Input} {all : List Sent}
    (h : p.run (is ++ js) = some (p₂, all)) :
    ∃ p₁ out outs, p.run is = some (p₁, out) ∧ p₁.run js = some (p₂, outs) ∧ all = out ++ outs := by
  induction is generalizing p all with
  | nil => exact ⟨p, [], all, rfl, h, rfl⟩
  | cons i is ih =>
      simp only [List.cons_append, run, Option.bind_eq_bind, Option.bind_eq_some_iff] at h
      obtain ⟨⟨q, first⟩, hstep, ⟨r, rest⟩, hrun, heq⟩ := h
      obtain ⟨rfl, rfl⟩ := Prod.mk.inj (Option.some.inj heq)
      obtain ⟨p₁, out, outs, his, hjs, rfl⟩ := ih hrun
      exact ⟨p₁, first ++ out, outs, run_cons hstep his, hjs, (List.append_assoc ..).symm⟩

/-- One input more. -/
theorem run_concat [Tokenizer] {p p₁ p₂ : Program} {is : List Input} {i : Input}
    {out outs : List Sent} (hrun : p.run is = some (p₁, out))
    (hstep : p₁.step i = some (p₂, outs)) :
    p.run (is ++ [i]) = some (p₂, out ++ outs) := by
  have hlast : p₁.run [i] = some (p₂, outs) := by simp [run, hstep]
  exact run_append hrun hlast

/-- Texts are plain messages without attachments. -/
theorem sound_strings (ss : List (List Char)) : Endpoint.Sound (ss.map Message.string) ∧
    Message.attachmentsElements (ss.map Message.string) = [] := by
  have hplain : Message.PlainElements (ss.map Message.string) := by
    induction ss with
    | nil => trivial
    | cons s ss ih => exact ⟨trivial, ih⟩
  have hnone : Message.attachmentsElements (ss.map Message.string) = [] := by
    induction ss with
    | nil => rfl
    | cons s ss ih => exact ih hplain.2
  exact ⟨⟨hplain, by rw [hnone]; decide⟩, hnone⟩

/-- An emit of texts. -/
def IsText (e : Sent) : Prop :=
  ∃ ss : List (List Char), e.msglist = ss.map Message.string

theorem isText_sent (x : Emit) : IsText x.sent := by
  cases x with
  | throwTile tile => exact ⟨[tile], rfl⟩
  | sendCommand text => exact ⟨[text], rfl⟩

/-- The listeners send texts. -/
theorem isText_of_listen [Tokenizer] {p p' : Program} {data : List Message} {h : Handler}
    {out : List Sent} (hlisten : p.listen data h = some (p', out)) : ∀ e ∈ out, IsText e := by
  cases h with
  | readyToStart =>
      simp only [listen, Option.bind_eq_bind, Option.bind_eq_some_iff] at hlisten
      obtain ⟨-, -, room, -, heq⟩ := hlisten
      obtain ⟨-, rfl⟩ := Prod.mk.inj (Option.some.inj heq)
      intro e he
      rcases List.mem_cons.mp he with rfl | he
      · exact ⟨[p.uuid, room], rfl⟩
      · obtain rfl := List.mem_singleton.mp he
        exact ⟨[p.uuid, room], rfl⟩
  | _ =>
      simp only [listen, Option.bind_eq_bind, Option.bind_eq_some_iff] at hlisten
      obtain ⟨-, -, ⟨bot, l⟩, -, heq⟩ := hlisten
      obtain ⟨-, rfl⟩ := Prod.mk.inj (Option.some.inj heq)
      intro e he
      obtain ⟨x, -, rfl⟩ := List.mem_map.mp he
      exact isText_sent x

/-- **The program sends texts only.** -/
theorem isText_of_step [Tokenizer] {p p' : Program} {i : Input} {out : List Sent}
    (h : p.step i = some (p', out)) : ∀ e ∈ out, IsText e := by
  cases i with
  | bind =>
      rw [step] at h
      split at h
      · obtain ⟨-, rfl⟩ := Prod.mk.inj (Option.some.inj h)
        exact fun e he => absurd he List.not_mem_nil
      · exact absurd h (by simp)
  | join name =>
      rw [step] at h
      split at h
      · obtain ⟨-, rfl⟩ := Prod.mk.inj (Option.some.inj h)
        intro e he
        obtain rfl := List.mem_singleton.mp he
        exact ⟨["bot-".toList ++ name], rfl⟩
      · exact absurd h (by simp)
  | ack c args =>
      obtain ⟨q, -, heq⟩ := Option.map_eq_some_iff.mp h
      obtain ⟨-, rfl⟩ := Prod.mk.inj heq
      exact fun e he => absurd he List.not_mem_nil
  | event name data =>
      simp only [step] at h
      split at h
      · obtain ⟨-, rfl⟩ := Prod.mk.inj (Option.some.inj h)
        exact fun e he => absurd he List.not_mem_nil
      · split at h
        · exact isText_of_listen h
        · obtain ⟨-, rfl⟩ := Prod.mk.inj (Option.some.inj h)
          exact fun e he => absurd he List.not_mem_nil

theorem isText_of_run [Tokenizer] {p p' : Program} {is : List Input} {out : List Sent}
    (h : p.run is = some (p', out)) : ∀ e ∈ out, IsText e := by
  induction is generalizing p out with
  | nil =>
      obtain ⟨-, rfl⟩ := Prod.mk.inj (Option.some.inj h)
      exact fun e he => absurd he List.not_mem_nil
  | cons i is ih =>
      simp only [run, Option.bind_eq_bind, Option.bind_eq_some_iff] at h
      obtain ⟨⟨q, first⟩, hstep, ⟨r, rest⟩, hrun, heq⟩ := h
      obtain ⟨rfl, rfl⟩ := Prod.mk.inj (Option.some.inj heq)
      intro e he
      rcases List.mem_append.mp he with he | he
      · exact isText_of_step hstep e he
      · exact ih hrun e he

/-- What comes in before a game: the answer to `join` names the player, `readyToStart` the
room, and the answer to `ready` gives the number of the player. -/
def handshake (name uuid room : List Char) (id : ℤ) : List Input :=
  [.bind, .join name, .ack .join [.string uuid], .event "readyToStart".toList [.string room],
    .ack .ready [.int id]]

/-- **The bot signs in** with the names that it was given. -/
theorem run_handshake [Tokenizer] (id₀ : ℤ) (name uuid room : List Char) {id : ℤ}
    (hid : -2 ^ 31 ≤ id ∧ id < 2 ^ 31) :
    (init id₀).run (handshake name uuid room id) =
      some (⟨Bot.init id, uuid, room, .joined⟩, join name :: signIn uuid room) := by
  have hbind : bindEvents "readyToStart".toList = some .readyToStart := by decide +kernel
  have hwrap : Json.wrap32 id = id := by
    rw [Json.wrap32]
    omega
  have hready : (⟨Bot.init id₀, uuid, room, .joined⟩ : Program).step (.ack .ready [.int id]) =
      some (⟨Bot.init id, uuid, room, .joined⟩, []) := by
    simp [step, called, Message.getInt, hwrap, Bot.init]
  have hstart : (⟨Bot.init id₀, uuid, [], .joined⟩ : Program).step
      (.event "readyToStart".toList [.string room]) =
        some (⟨Bot.init id₀, uuid, room, .joined⟩, signIn uuid room) := by
    simp only [step, hbind]
    rfl
  have hnil : (⟨Bot.init id, uuid, room, .joined⟩ : Program).run [] =
      some (⟨Bot.init id, uuid, room, .joined⟩, []) := rfl
  have hnamed : (⟨Bot.init id₀, [], [], .joined⟩ : Program).step (.ack .join [.string uuid]) =
      some (⟨Bot.init id₀, uuid, [], .joined⟩, []) := rfl
  have hjoined : (⟨Bot.init id₀, [], [], .bound⟩ : Program).step (.join name) =
      some (⟨Bot.init id₀, [], [], .joined⟩, [join name]) := rfl
  have hbound : (init id₀).step .bind = some (⟨Bot.init id₀, [], [], .bound⟩, []) := rfl
  exact run_cons hbound (run_cons hjoined (run_cons hnamed (run_cons hstart
    (run_cons hready hnil))))

end Program

/-! ### A round -/

/-- The server event that an input stands for, for the player with the number `id`. An event
without a listener does nothing. -/
def Input.read (id : ℤ) : Input → Option ServerEvent
  | .event name data =>
      match bindEvents name with
      | some h => readEvent id data h
      | none => some .other
  | _ => none

/-- The event of the input is allowed and happens, and the bot keeps track of its hand. -/
def Play.Receives [Tokenizer] (s : Play) (i : Input) (s' : Play) : Prop :=
  ∃ e, i.read s.bot.player.id = some e ∧ Play.Tracks s e s'

/-- The bot answers an input legally. -/
def Play.Replies [Tokenizer] (s : Play) (x : Input × List Emit) (s' : Play) : Prop :=
  ∃ e, x.1.read s.bot.player.id = some e ∧ s.step e = some (s', x.2) ∧ s.Legal x.2 e

namespace Program

/-- An input that stands for an event calls its handler. -/
theorem step_of_read [Tokenizer] {p : Program} {i : Input} {e : ServerEvent} {bot : Bot}
    {out : List Emit}
    (hstage : p.stage ≠ .connecting) (hread : i.read p.bot.player.id = some e)
    (hhandle : p.bot.handle e = some (bot, out)) :
    p.step i = some ({ p with bot := bot }, out.map Emit.sent) := by
  cases i with
  | bind => exact absurd hread (by simp [Input.read])
  | join name => exact absurd hread (by simp [Input.read])
  | ack c args => exact absurd hread (by simp [Input.read])
  | event name data =>
      rw [Input.read] at hread
      cases hname : bindEvents name with
      | none =>
          rw [hname] at hread
          obtain rfl := Option.some.inj hread
          obtain ⟨rfl, rfl⟩ := Prod.mk.inj (Option.some.inj hhandle)
          simp only [step, if_neg hstage, hname]
          rfl
      | some h =>
          rw [hname] at hread
          simp only [step, if_neg hstage, hname]
          cases h with
          | readyToStart => exact absurd hread (by simp [readEvent])
          | _ =>
              simp only [listen, hread, hhandle, Option.bind_eq_bind, Option.bind_some]
              rfl

/-- The handler that is called in a step of a round. -/
theorem handle_of_step [Tokenizer] {s s' : Play} {e : ServerEvent} {out : List Emit}
    (h : s.step e = some (s', out)) : s.bot.handle e = some (s'.bot, out) := by
  rw [Play.step] at h
  split at h
  · exact absurd h (by simp)
  · rename_i bot out' hhandle
    obtain ⟨seat, -, heq⟩ := Option.map_eq_some_iff.mp h
    obtain ⟨rfl, rfl⟩ := Prod.mk.inj heq
    exact hhandle

/-- **One input of a round** is read and answered legally. -/
theorem replies_of_receives [Tokenizer] {p : Program} {s s' : Play} {i : Input}
    (hstage : p.stage ≠ .connecting) (hbot : p.bot = s.bot) (hinv : s.Inv) (h : s.Receives i s') :
    ∃ out, s.Replies (i, out) s' ∧
      p.step i = some ({ p with bot := s'.bot }, out.map Emit.sent) := by
  obtain ⟨e, hread, ⟨hlaw, out, hstep⟩, -⟩ := h
  obtain ⟨t, out', hstep', hlegal⟩ := hinv.legal hlaw
  obtain ⟨rfl, rfl⟩ := Prod.mk.inj (Option.some.inj (hstep'.symm.trans hstep))
  rw [← hbot] at hread
  have hhandle := handle_of_step hstep
  rw [← hbot] at hhandle
  refine ⟨out', ⟨e, ?_, hstep, hlegal⟩, step_of_read hstage hread hhandle⟩
  rwa [← hbot]

/-- **The program plays a round by the rules**: it takes every input, and what it sends are
the legal answers, in order. -/
theorem exists_replies [Tokenizer] {p : Program} {s s' : Play} {is : List Input}
    (hstage : p.stage ≠ .connecting) (hbot : p.bot = s.bot) (hinv : s.Inv)
    (h : Run Play.Receives s is s') :
    ∃ xs : List (Input × List Emit), xs.map Prod.fst = is ∧ Run Play.Replies s xs s' ∧
      p.run is = some ({ p with bot := s'.bot }, (xs.flatMap Prod.snd).map Emit.sent) := by
  induction h with
  | nil => exact ⟨[], rfl, Run.nil s, by rw [← hbot]; rfl⟩
  | @snoc t u is i hrun hlast ih =>
      obtain ⟨xs, rfl, hreplies, hprogram⟩ := ih
      have ht : t.Inv := hrun.invariant (I := Play.Inv)
        (fun hs hstep => by
          obtain ⟨e, -, hfollows⟩ := hstep
          exact hs.step hfollows) hinv
      obtain ⟨out, hreply, hstep⟩ :=
        replies_of_receives (p := { p with bot := t.bot }) hstage rfl ht hlast
      refine ⟨xs ++ [(i, out)], by simp, hreplies.snoc hreply, ?_⟩
      rw [run_append hprogram (run_cons hstep rfl)]
      simp

/-- **A game**: the bot signs in, and after the first deal its answers to a round by the rules
are legal, whatever the memory of the player held before. -/
theorem answers_of_round [Tokenizer] (id₀ : ℤ) (name uuid room : List Char) {id : ℤ}
    (hid : -2 ^ 31 ≤ id ∧ id < 2 ^ 31) {deal : Input} {list : List (List Char)}
    (hdeal : deal.read id = some (.dealTile list)) {is : List Input} {s : Play}
    (h : Run Play.Receives (Play.init id) (deal :: is) s) :
    ∃ xs : List (Input × List Emit), xs.map Prod.fst = deal :: is ∧
      Run Play.Replies (Play.init id) xs s ∧
      (init id₀).run (handshake name uuid room id ++ deal :: is) =
        some (⟨s.bot, uuid, room, .joined⟩,
          join name :: signIn uuid room ++ (xs.flatMap Prod.snd).map Emit.sent) := by
  obtain ⟨t, ⟨e, hread, hfollows⟩, hrest⟩ := h.of_cons
  obtain rfl : .dealTile list = e := Option.some.inj (hdeal.symm.trans hread)
  have ht : t.Inv := Play.inv_deal (s := Play.init id) (Game.inv_init id) hfollows.1
  obtain ⟨⟨hlaw, out, hstep⟩, -⟩ := hfollows
  have hlaw' := hlaw
  obtain ⟨ks, hks, h4, -⟩ := hlaw'
  rw [Play.step_deal hks h4] at hstep
  obtain ⟨rfl, rfl⟩ := Prod.mk.inj (Option.some.inj hstep)
  let q : Program := ⟨Bot.init id, uuid, room, .joined⟩
  have hstage : q.stage ≠ .connecting := by simp [q]
  obtain ⟨xs, rfl, hreplies, hrun⟩ :=
    exists_replies (p := { q with bot := (Bot.init id).dealTile list }) hstage rfl ht hrest
  have hhandle : q.bot.handle (.dealTile list) = some ((Bot.init id).dealTile list, []) := rfl
  have hfirst := step_of_read hstage (show deal.read q.bot.player.id = _ from hread) hhandle
  refine ⟨(deal, []) :: xs, rfl, Run.cons ⟨_, hread, Play.step_deal hks h4, rfl⟩ hreplies, ?_⟩
  rw [run_append (run_handshake id₀ name uuid room hid) (run_cons hfirst hrun)]
  simp [q]

end Program

end MahjongAI
