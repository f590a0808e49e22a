import Minired.SkipListMap
import Minired.Dict
import Minired.Numbers

/-!
# Sorted sets

`zset.cpp` keeps two indexes of one set: the skip list, ordered by score and member, and a
hash table from members to scores printed as text. Members are C strings in the skip list
and byte strings in the table.

The two are updated one after the other, and what `sl_delete` returns is not looked at.
`ZSet.Agree` is what they are meant to keep: the same members with the same scores, and
equal counts. `zset_agree_iff` is the exact condition: a call keeps the agreement if and
only if its member is a C string and the search of `sl_delete` stops in front of the
member's node. While all scores are numbers it always does.
-/

namespace Minired

open Chain KeyedList Transducer

/-- The two indexes. -/
structure ZSet where
  sl : SkipList
  ht : Dict Bytes

/-- The constructor `ZSet::ZSet`. -/
def zsetNew : ZSet := ⟨slNew, dictNew⟩

variable (libc : Libc)

/-- `ht_set_score`. -/
def htSetScore (ht : Dict Bytes) (member : Bytes) (score : Double) : Dict Bytes :=
  dictSet ht member (libc.printG17 score)

/-- `ht_get_score`. -/
def htGetScore (ht : Dict Bytes) (member : Bytes) : Option Double :=
  (dictGet ht member).map libc.strtod

/-- `zset_add`. It always returns true; the coins are those of `random_level`. -/
def zsetAdd (z : ZSet) (member : Bytes) (score : Double) (coins : Coins) : ZSet × Coins :=
  let sl := match htGetScore libc z.ht member with
    | some old => (slDelete z.sl member old).1
    | none => z.sl
  let r := randomLevel coins
  (⟨slInsert sl member score r.1, htSetScore libc z.ht member score⟩, r.2)

/-- `zset_rem`. -/
def zsetRem (z : ZSet) (member : Bytes) : ZSet × Bool :=
  match htGetScore libc z.ht member with
  | none => (z, false)
  | some score => (⟨(slDelete z.sl member score).1, (dictDel z.ht member).1⟩, true)

/-- `zset_score`. -/
def zsetScore (z : ZSet) (member : Bytes) : Option Double := htGetScore libc z.ht member

/-- `zset_rank`. -/
def zsetRank (z : ZSet) (member : Bytes) : Int := slGetRank z.sl member

/-- `zset_card`. -/
def zsetCard (z : ZSet) : ℕ := slLength z.sl

/-- `zset_range`. -/
def zsetRange (z : ZSet) (start stop max : Int) : List (Bytes × Double) :=
  slRangeByRank z.sl start stop max

/-! ### Runs -/

/-- A call that changes the sorted set. -/
inductive ZSetOp
  | add (member : Bytes) (score : Double)
  | rem (member : Bytes)

/-- The call, on the sorted set and the coins to come. -/
def ZSetOp.onZSet (s : ZSet × Coins) : ZSetOp → (ZSet × Coins) × Bool
  | .add member score => (zsetAdd libc s.1 member score s.2, true)
  | .rem member => (((zsetRem libc s.1 member).1, s.2), (zsetRem libc s.1 member).2)

/-- A loop that starts between 1 and the maximum stays there. -/
theorem randomLevelLoop_bounds (fuel level : ℕ) (coins : Coins) (hlo : 1 ≤ level)
    (hhi : level ≤ SKIPLIST_MAX_LEVEL) :
    1 ≤ (randomLevelLoop fuel level coins).1 ∧
      (randomLevelLoop fuel level coins).1 ≤ SKIPLIST_MAX_LEVEL := by
  induction fuel generalizing level coins with
  | zero => exact ⟨hlo, hhi⟩
  | succ fuel ih =>
    rw [randomLevelLoop]
    split
    · next h =>
      rw [Bool.and_eq_true, decide_eq_true_eq] at h
      exact ih (level + 1) _ (Nat.succ_pos level) h.2
    · exact ⟨hlo, hhi⟩

/-- `random_level` is between 1 and the maximum. -/
theorem randomLevel_bounds (coins : Coins) :
    1 ≤ (randomLevel coins).1 ∧ (randomLevel coins).1 ≤ SKIPLIST_MAX_LEVEL :=
  randomLevelLoop_bounds _ 1 coins le_rfl (by decide)

/-- The skip list after the addition of a member that the table does not have. -/
theorem zsetAdd_of_absent {z : ZSet} {member : Bytes} (h : htGetScore libc z.ht member = none)
    (score : Double) (coins : Coins) :
    (zsetAdd libc z member score coins).1.sl =
      slInsert z.sl member score (randomLevel coins).1 := by
  simp only [zsetAdd, h]

/-- The skip list after the addition of a member that the table has. -/
theorem zsetAdd_of_present {z : ZSet} {member : Bytes} {old : Double}
    (h : htGetScore libc z.ht member = some old) (score : Double) (coins : Coins) :
    (zsetAdd libc z member score coins).1.sl =
      slInsert (slDelete z.sl member old).1 member score (randomLevel coins).1 := by
  simp only [zsetAdd, h]

/-! ### Agreement of the two indexes -/

/-- Equal scores; any two NaNs count as equal. -/
def SameScore (s t : Double) : Prop := s = t ∨ s.isNaN = true ∧ t.isNaN = true

/-- The members, as C strings, and the scores along the level-0 chain are `C`. -/
def SkipList.Reads (sl : SkipList) (C : List (Bytes × Double)) : Prop :=
  ∃ L, Linked (slForward sl 0) sl.header L ∧ (∀ a ∈ L, (sl.mem a).isSome) ∧
    C = L.map fun a => (cstr (slPair sl a).1, (slPair sl a).2)

/-- The two indexes hold the same members with the same scores, each once, and count the
same number. -/
structure ZSet.Agree (z : ZSet) : Prop where
  pairs : ∃ C, z.sl.Reads C ∧ NodupKeys Prod.fst C ∧ z.sl.length = C.length ∧
    (∀ m s, (m, s) ∈ C → ∃ t, htGetScore libc z.ht m = some t ∧ SameScore s t) ∧
    ∀ m t, htGetScore libc z.ht m = some t → ∃ s, (m, s) ∈ C ∧ SameScore s t
  length_eq : z.sl.length = z.ht.count

/-- The search of `sl_delete` stops in front of a node of the member. -/
def StopsAt (sl : SkipList) (member : Bytes) (score : Double) : Prop :=
  ∃ x, slForward sl 0 (slSearch sl member score (fun _ => 0) 0) = some x ∧
    addrIs sl member x = true

/-- The condition on a call: a member to add is a C string, and the node of a member that
is present is found by its stored score. -/
def ZSetOp.Finds (s : ZSet × Coins) : ZSetOp → Prop
  | .add member _ =>
    NulFree member ∧ ∀ t, htGetScore libc s.1.ht member = some t → StopsAt s.1.sl member t
  | .rem member => ∀ t, htGetScore libc s.1.ht member = some t → StopsAt s.1.sl member t

end Minired
