import Minired.Numbers
import Minired.Lib.Tower

/-!
# The skip list

`skiplist.cpp`, pointer by pointer. A node lives at an address of the heap `mem`; a
pointer is an optional address. `new` takes the next address that was never used and
`delete` empties the cell, so that a stale pointer reads an empty cell and not a new node.

Every loop that follows pointers gets the number of addresses ever allocated as fuel. A
chain without repetition is never longer, so the fuel is not what ends a loop; the
invariant of `Minired.SkipListInv` shows it.

The coin flips of `random_level` are a stream of outcomes, `Coins`.
-/

namespace Minired

open Chain Tower

/-- `SKIPLIST_MAX_LEVEL`. -/
def SKIPLIST_MAX_LEVEL : ℕ := 32

/-- An address of the heap. -/
abbrev Addr := ℕ

/-- A node; `forward` has `level` pointers, all null at first. -/
structure SkipListNode where
  member : Bytes
  score : Double
  level : ℕ
  forward : ℕ → Option Addr

/-- The skip list and the heap it lives in. -/
structure SkipList where
  mem : Addr → Option SkipListNode
  /-- The next address `new` will use. -/
  brk : Addr
  header : Addr
  level : ℕ
  length : ℕ

/-- The outcomes of the comparisons `(double)rand() / RAND_MAX < SKIPLIST_P` to come. -/
abbrev Coins := ℕ → Bool

/-- The loop of `random_level`: the coin is flipped before the level is compared. -/
def randomLevelLoop : ℕ → ℕ → Coins → ℕ × Coins
  | 0, level, coins => (level, coins)
  | fuel + 1, level, coins =>
    if coins 0 && level < SKIPLIST_MAX_LEVEL then
      randomLevelLoop fuel (level + 1) (fun n => coins (n + 1))
    else (level, fun n => coins (n + 1))

/-- `random_level`. -/
def randomLevel (coins : Coins) : ℕ × Coins := randomLevelLoop SKIPLIST_MAX_LEVEL 1 coins

/-- `new SkipListNode(m, mlen, s, lvl)`. -/
def newNode (member : Bytes) (score : Double) (level : ℕ) : SkipListNode :=
  ⟨member, score, level, fun _ => none⟩

/-- The score of the header, `-1e300`. -/
def headerScore : Double := ⟨0xfe37e43c8800759c⟩

/-- The constructor `SkipList::SkipList`. -/
def slNew : SkipList where
  mem := Function.update (fun _ => none) 0 (some (newNode [] headerScore SKIPLIST_MAX_LEVEL))
  brk := 1
  header := 0
  level := 1
  length := 0

/-- `x->forward[i]`. -/
def slForward (sl : SkipList) (i : ℕ) (x : Addr) : Option Addr :=
  (sl.mem x).bind fun n => n.forward i

/-- `x->forward[i] = y`. -/
def slSetForward (sl : SkipList) (i : ℕ) (x : Addr) (y : Option Addr) : SkipList :=
  { sl with
    mem := Function.update sl.mem x
      ((sl.mem x).map fun n => { n with forward := Function.update n.forward i y }) }

/-- `n->score < score || (n->score == score && strcmp(n->member, member) < 0)`. -/
def nodeBefore (member : Bytes) (score : Double) (n : SkipListNode) : Bool :=
  n.score.lt score || (n.score.eq score && decide (strcmp n.member member < 0))

/-- The test of the search loops, at an address. -/
def addrBefore (sl : SkipList) (member : Bytes) (score : Double) (y : Addr) : Bool :=
  ((sl.mem y).map (nodeBefore member score)).getD false

/-- `strcmp(n->member, member) == 0`, at an address. -/
def addrIs (sl : SkipList) (member : Bytes) (y : Addr) : Bool :=
  ((sl.mem y).map fun n => decide (strcmp n.member member = 0)).getD false

/-- The search in front of an insertion or deletion: fills `update[]` from the highest
level of the list down. -/
def slSearch (sl : SkipList) (member : Bytes) (score : Double) (update : ℕ → Addr) : ℕ → Addr :=
  descend (slForward sl) (addrBefore sl member score) sl.brk sl.level sl.header update

/-- The unlinking loop of `sl_delete`, from level `i` on: it stops at the first level on
which the node is not linked. -/
def slUnlink (x : Addr) (update : ℕ → Addr) : ℕ → ℕ → SkipList → SkipList
  | 0, _, sl => sl
  | k + 1, i, sl =>
    if slForward sl i (update i) = some x then
      slUnlink x update k (i + 1) (slSetForward sl i (update i) (slForward sl i x))
    else sl

/-- `while (sl->level > 1 && !sl->header->forward[sl->level - 1]) sl->level--`. -/
def slLowerLevel (sl : SkipList) : ℕ → ℕ
  | 0 => 0
  | 1 => 1
  | l + 2 => if slForward sl (l + 1) sl.header = none then slLowerLevel sl (l + 1) else l + 2

/-- `sl_delete`. The array `update[]` is uninitialised at first. -/
def slDelete (sl : SkipList) (member : Bytes) (score : Double) : SkipList × Bool :=
  let update := slSearch sl member score fun _ => 0
  match slForward sl 0 (update 0) with
  | none => (sl, false)
  | some x =>
    if addrIs sl member x then
      let sl' := slUnlink x update sl.level 0 sl
      let sl'' := { sl' with mem := Function.update sl'.mem x none, length := sl.length - 1 }
      ({ sl'' with level := slLowerLevel sl'' sl''.level }, true)
    else (sl, false)

/-- `for (i = sl->level; i < lvl; i++) update[i] = sl->header`. -/
def slExtend (sl : SkipList) (lvl : ℕ) (update : ℕ → Addr) : ℕ → Addr :=
  fun i => if sl.level ≤ i ∧ i < lvl then sl.header else update i

/-- The linking loop of `sl_insert`, for the levels below `lvl`. -/
def slLink (n : Addr) (update : ℕ → Addr) (sl : SkipList) (lvl : ℕ) : SkipList :=
  (List.range lvl).foldl
    (fun sl i => slSetForward (slSetForward sl i n (slForward sl i (update i))) i (update i)
      (some n)) sl

/-- The end of `sl_insert`: raise the level, allocate the node and link it in. -/
def slPlace (sl : SkipList) (member : Bytes) (score : Double) (lvl : ℕ) (update : ℕ → Addr) :
    SkipList :=
  let update := if sl.level < lvl then slExtend sl lvl update else update
  let sl := if sl.level < lvl then { sl with level := lvl } else sl
  let n := sl.brk
  let sl := { sl with
    mem := Function.update sl.mem n (some (newNode member score lvl))
    brk := sl.brk + 1 }
  let sl := slLink n update sl lvl
  { sl with length := sl.length + 1 }

/-- `sl_insert`, with the outcome `lvl` of `random_level`. A node of the same member is
deleted first, by its own score, and the search is repeated. -/
def slInsert (sl : SkipList) (member : Bytes) (score : Double) (lvl : ℕ) : SkipList :=
  let update := slSearch sl member score fun _ => 0
  match (firstFrom (slForward sl 0) (addrIs sl member) sl.brk sl.header).bind sl.mem with
  | some cur =>
    let sl := (slDelete sl member cur.score).1
    slPlace sl member score lvl (slSearch sl member score update)
  | none => slPlace sl member score lvl update

/-- `sl_get_score`. -/
def slGetScore (sl : SkipList) (member : Bytes) : Option Double :=
  ((firstFrom (slForward sl 0) (addrIs sl member) sl.brk sl.header).bind sl.mem).map (·.score)

/-- The loop of `sl_get_rank`. -/
def slRankLoop (sl : SkipList) (member : Bytes) : ℕ → Int → Option Addr → Int
  | 0, _, _ => -1
  | _ + 1, _, none => -1
  | fuel + 1, rank, some x =>
    if addrIs sl member x then rank
    else slRankLoop sl member fuel (rank + 1) (slForward sl 0 x)

/-- `sl_get_rank`. -/
def slGetRank (sl : SkipList) (member : Bytes) : Int :=
  slRankLoop sl member (sl.brk + 1) 0 (slForward sl 0 sl.header)

/-- `for (i = 0; i < start && x; i++) x = x->forward[0]`. -/
def slSkip (sl : SkipList) : ℕ → Option Addr → Option Addr
  | 0, x => x
  | _ + 1, none => none
  | k + 1, some x => slSkip sl k (slForward sl 0 x)

/-- The copying loop of `sl_range_by_rank`, over at most `k` nodes. -/
def slCopy (sl : SkipList) : ℕ → Option Addr → List (Bytes × Double)
  | 0, _ => []
  | _ + 1, none => []
  | k + 1, some x =>
    match sl.mem x with
    | none => []
    | some n => (n.member, n.score) :: slCopy sl k (slForward sl 0 x)

/-- `sl_range_by_rank`: the members and scores copied out. The copying loop runs while
`i <= end`, there is a node and `count < max`. -/
def slRangeByRank (sl : SkipList) (start stop max : Int) : List (Bytes × Double) :=
  let start := if start < 0 then (sl.length : Int) + start else start
  let stop := if stop < 0 then (sl.length : Int) + stop else stop
  let start := if start < 0 then 0 else start
  let stop := if stop ≥ (sl.length : Int) then (sl.length : Int) - 1 else stop
  if start > stop then []
  else
    slCopy sl (min (stop - start + 1).toNat max.toNat)
      (slSkip sl start.toNat (slForward sl 0 sl.header))

/-- `sl_length`. -/
def slLength (sl : SkipList) : ℕ := sl.length

end Minired
