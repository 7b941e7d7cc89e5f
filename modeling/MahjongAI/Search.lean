import Mathlib.Algebra.BigOperators.Group.List.Basic
import Mathlib.Data.Fintype.Pi
import MahjongAI.Cards

/-!
# The Hand Search of Irb00

`Irb00` repacks a hand into four words (`Tiles`): the three suits, and one word that
holds the winds in fields `0`–`3` and the dragons in fields `4`–`6`. Its step count
`stepToHu1617` takes the hand apart in every possible way: `groupMask` lists the forty
blocks of one suit (nine pairs, nine triplets, seven runs, eight neighbouring and seven
gapped pairs of a run), block code `c` is mask `c % 40` of word `c / 40`, and the codes
below `138` are the blocks of the three suits and the pairs and triplets of the honours.
`findGroups` removes blocks in code order until none fits and `countSteps` scores what
it collected, the codes `180 + i` standing for single tiles.

The source passes the component list and a start index; the pair is represented here by
the suffix of the list from that index. Every block taken off removes at least two tiles,
so the recursion depth is bounded by the number of tiles, which `stepToHu1617` passes as
fuel; a search whose fuel does not last has no result.
-/

open Packed

namespace MahjongAI

/-- The words of a packed hand are numbered by `Fin 4`. -/
instance neZeroFour : NeZero 4 := ⟨by decide⟩

/-- `Irb00::Tiles_`: a hand in four packed words. -/
structure Tiles where
  tiles : Fin 4 → ℤ
  deriving DecidableEq

/-- `GroupMask[40]`, the blocks of one word. -/
def groupMasks : List ℤ :=
  [0o2, 0o20, 0o200, 0o2000, 0o20000, 0o200000, 0o2000000, 0o20000000, 0o200000000,
   0o3, 0o30, 0o300, 0o3000, 0o30000, 0o300000, 0o3000000, 0o30000000, 0o300000000,
   0o111, 0o1110, 0o11100, 0o111000, 0o1110000, 0o11100000, 0o111000000,
   0o11, 0o110, 0o1100, 0o11000, 0o110000, 0o1100000, 0o11000000, 0o110000000,
   0o101, 0o1010, 0o10100, 0o101000, 0o1010000, 0o10100000, 0o101000000]

def groupMask (i : ℕ) : ℤ :=
  groupMasks.getD i 0

/-- `Irb00::Have`: the nine fields of `m` are at most those of `t`. -/
def haveMask (t m : ℤ) : Bool :=
  (List.range 9).all fun i => decide (field 3 m i ≤ field 3 t i)

/-- The word of a block code, `code / 40`. -/
def codeColor (code : ℕ) : Fin 4 :=
  Fin.ofNat 4 (code / 40)

/-- The mask of a block code, `GroupMask[code % 40]`. -/
def codeMask (code : ℕ) : ℤ :=
  groupMask (code % 40)

namespace Tiles

/-- The field of cell `k`: field `k % 9` of word `k / 9`. -/
def get (T : Tiles) (k : ℕ) : ℤ :=
  field 3 (T.tiles (Fin.ofNat 4 (k / 9))) (k % 9)

/-- `Have(T.tiles[code / 40], GroupMask[code % 40])`. -/
def has (T : Tiles) (code : ℕ) : Bool :=
  haveMask (T.tiles (codeColor code)) (codeMask code)

/-- `t.tiles[code / 40] -= GroupMask[code % 40]`. -/
def take (T : Tiles) (code : ℕ) : Tiles :=
  ⟨Function.update T.tiles (codeColor code) (T.tiles (codeColor code) - codeMask code)⟩

/-- The codes `180 + i` of the tiles left in the hand, one for each copy. -/
def leafCodes (T : Tiles) : List ℕ :=
  (List.range 34).flatMap fun i => List.replicate (T.get i).toNat (180 + i)

/-- The number of tiles over all fields of the four words. -/
def size (T : Tiles) : ℕ :=
  ((List.range 36).map fun k => (T.get k).toNat).sum

end Tiles

/-- `Irb00::GetComponent`: the block codes that fit into the hand. -/
def getComponent (T : Tiles) : List ℕ :=
  (List.range 138).filter fun i => T.has i

/-- `Irb00::Groups`: one decomposition and its steps. -/
structure Groups where
  code : List ℕ
  steps : ℤ
  deriving DecidableEq, Repr

/-- One turn of the loop of `Irb00::FindGroups`: the component that the suffix begins with, if
it fits, and what `search` finds after it. -/
def follow (search : Tiles → List ℕ → List ℕ → Option (List Groups)) (T : Tiles)
    (tmp : List ℕ) : List ℕ → Option (List Groups)
  | [] => some []
  | c :: rest => if T.has c then search (T.take c) (c :: rest) (tmp ++ [c]) else some []

/-- `Irb00::FindGroups`: every way to take blocks off the hand in component order, each
followed until no further component fits. There is no result when the fuel does not last. -/
def findGroups : ℕ → Tiles → List ℕ → List ℕ → Option (List Groups)
  | 0, _, _, _ => none
  | fuel + 1, T, Componet, tmp =>
      if Componet.any T.has then
        (Componet.tails.mapM (follow (findGroups fuel) T tmp)).map List.flatten
      else
        some [{ code := tmp ++ T.leafCodes, steps := 0 }]

/-- The numbers of groups, partial runs, pairs and single tiles of a decomposition. -/
structure BlockCounts where
  group : ℤ
  pre_group : ℤ
  pair : ℤ
  single : ℤ

/-- The counting loop of `Irb00::CountSteps`. -/
def blockCounts (code : List ℕ) : BlockCounts where
  group := code.countP fun c => c < 180 ∧ 9 ≤ c % 40 ∧ c % 40 < 25
  pre_group := code.countP fun c => c < 180 ∧ 25 ≤ c % 40
  pair := code.countP fun c => c < 180 ∧ c % 40 < 9
  single := code.countP fun c => 180 ≤ c

/-- The steps `Irb00::CountSteps` computes from the counts. -/
def BlockCounts.steps (b : BlockCounts) : ℤ :=
  let total := b.group * 3 + b.pre_group * 2 + b.pair * 2 + b.single
  let steps := total / 3 * 2 + 1
  let steps := steps - (b.group * 2 + b.pre_group + b.pair)
  let steps :=
    if b.group + b.pre_group + b.pair > total / 3 + 1 then
      steps + (b.group + b.pre_group + b.pair - (total / 3 + 1))
    else steps
  if b.pre_group ≠ 0 ∧ b.pre_group ≥ total / 3 + 1 - b.group ∧ b.pair = 0 then steps + 1
  else steps

/-- `Irb00::CountSteps`: scores every decomposition and keeps those of least steps. -/
def countSteps (G : List Groups) : List Groups :=
  let scored := G.map fun g => { g with steps := (blockCounts g.code).steps }
  let min := scored.foldl (fun m g => if g.steps < m then g.steps else m) 100
  scored.filter fun g => g.steps ≤ min

/-- `Irb00::StepToHu1617`: the steps of the first of the best decompositions. The search has a
result with this fuel, and the list read at its first element is never empty for a hand of less
than `148` tiles. -/
def stepToHu1617 (Hand : Tiles) : ℤ :=
  let component := getComponent Hand
  match (findGroups (Hand.size + 1) Hand component []).map countSteps with
  | some (G :: _) => G.steps
  | _ => 0

end MahjongAI
