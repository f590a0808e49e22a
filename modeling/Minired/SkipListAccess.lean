import Minired.Lib.TwoWay
import Minired.ZSet

/-!
# The accesses of the skip list

`SkipList` reads a cell that is gone, a pointer above the level of its node and an element of
`update[]` that was never written as something harmless. In C++ all three are undefined. Here every
access is checked, and an operation that makes one it must not make has no result:

* `x->member`, `x->score` and `x->forward` need the node of `x`;
* `forward[i]` needs `i < level`, for the array has as many elements;
* `update[i] = x` needs `i < SKIPLIST_MAX_LEVEL`, and `update[i]` that it was written;
* `delete x` needs the node, and takes it away.

A loop that follows pointers must come to its end within one step more than there were addresses.

`Kept` is what the operations need of the list, on top of `SkipList.Repr`: the header has
`SKIPLIST_MAX_LEVEL` pointers, no level is higher, and the heap has the nodes of the list and
nothing else. Then an operation with its accesses does what it does without (`Kept.slInsert_eq`,
`Kept.slDelete_eq`), and `skipList_memory_safe` is what this comes to in every run: no access fails,
no node is leaked, and the destructor frees them all. Order plays no part, so this is also so for
scores that are not numbers and for deletions by another score than the node has.
-/

namespace Minired

open Chain Tower TwoWay

namespace SkipListAccess

/-- The elements of `SkipListNode* update[SKIPLIST_MAX_LEVEL]` that were written. -/
abbrev Update := ℕ → Option Addr

/-- `update[i] = x`. -/
def setUpdate (update : Update) (i : ℕ) (x : Addr) : Option Update :=
  if i < SKIPLIST_MAX_LEVEL then some (Function.update update i (some x)) else none

/-- `x->forward[i]`. -/
def slForward (sl : SkipList) (i : ℕ) (x : Addr) : Option (Option Addr) := do
  let n ← sl.mem x
  if i < n.level then some (n.forward i) else none

/-- `x->forward[i] = y`. -/
def slSetForward (sl : SkipList) (i : ℕ) (x : Addr) (y : Option Addr) : Option SkipList := do
  let n ← sl.mem x
  if i < n.level then some { sl with
    mem := Function.update sl.mem x (some { n with forward := Function.update n.forward i y }) }
  else none

/-- `delete x`. -/
def slFree (sl : SkipList) (x : Addr) : Option SkipList := do
  let _ ← sl.mem x
  some { sl with mem := Function.update sl.mem x none }

section

variable (sl : SkipList) (member : Bytes) (score : Double)

/-- The loop of a search on level `i`. -/
def slWalk (i : ℕ) : ℕ → Addr → Option Addr
  | 0, _ => none
  | fuel + 1, x => do
    match ← slForward sl i x with
    | none => some x
    | some y => do
      let n ← sl.mem y
      if nodeBefore member score n then slWalk i fuel y else some x

/-- The search, from level `i` down: where it ends, and what it has written. -/
def slSearch : ℕ → Addr → Update → Option (Addr × Update)
  | 0, x, update => some (x, update)
  | i + 1, x, update => do
    let x ← slWalk sl member score i (sl.brk + 1) x
    let update ← setUpdate update i x
    slSearch i x update

/-- The loop over the nodes that looks for a member. -/
def slFind : ℕ → Option Addr → Option (Option SkipListNode)
  | 0, _ => none
  | _ + 1, none => some none
  | fuel + 1, some x => do
    let n ← sl.mem x
    if strcmp n.member member = 0 then some (some n) else slFind fuel (← slForward sl 0 x)

/-- `while (sl->level > 1 && !sl->header->forward[sl->level - 1]) sl->level--`. -/
def slLowerLevel : ℕ → Option ℕ
  | 0 => some 0
  | 1 => some 1
  | l + 2 => do
    match ← slForward sl (l + 1) sl.header with
    | none => slLowerLevel (l + 1)
    | some _ => some (l + 2)

end

/-- The unlinking loop of `sl_delete`. -/
def slUnlink (x : Addr) (update : Update) : ℕ → ℕ → SkipList → Option SkipList
  | 0, _, sl => some sl
  | k + 1, i, sl => do
    let a ← update i
    if (← slForward sl i a) = some x then
      let sl ← slSetForward sl i a (← slForward sl i x)
      slUnlink x update k (i + 1) sl
    else some sl

/-- `sl_delete`. -/
def slDelete (sl : SkipList) (member : Bytes) (score : Double) : Option (SkipList × Bool) := do
  let (x, update) ← slSearch sl member score sl.level sl.header fun _ => none
  match ← slForward sl 0 x with
  | none => some (sl, false)
  | some x => do
    let n ← sl.mem x
    if strcmp n.member member = 0 then
      let sl' ← slUnlink x update sl.level 0 sl
      let sl'' ← slFree sl' x
      let sl'' := { sl'' with length := sl.length - 1 }
      some ({ sl'' with level := ← slLowerLevel sl'' sl''.level }, true)
    else some (sl, false)

/-- `for (i = sl->level; i < lvl; i++) update[i] = sl->header`, over `k` levels. -/
def slExtend (header : Addr) : ℕ → ℕ → Update → Option Update
  | 0, _, update => some update
  | k + 1, i, update => do slExtend header k (i + 1) (← setUpdate update i header)

/-- The linking loop of `sl_insert`, over `k` levels. -/
def slLink (n : Addr) (update : Update) : ℕ → ℕ → SkipList → Option SkipList
  | 0, _, sl => some sl
  | k + 1, i, sl => do
    let a ← update i
    let sl ← slSetForward sl i n (← slForward sl i a)
    let sl ← slSetForward sl i a (some n)
    slLink n update k (i + 1) sl

/-- The end of `sl_insert`. -/
def slPlace (sl : SkipList) (member : Bytes) (score : Double) (lvl : ℕ) (update : Update) :
    Option SkipList := do
  let update ← slExtend sl.header (lvl - sl.level) sl.level update
  let sl := if sl.level < lvl then { sl with level := lvl } else sl
  let n := sl.brk
  let sl := { sl with
    mem := Function.update sl.mem n (some (newNode member score lvl))
    brk := sl.brk + 1 }
  let sl ← slLink n update lvl 0 sl
  some { sl with length := sl.length + 1 }

/-- `sl_insert`, with the outcome `lvl` of `random_level`. The array `update[]` is the same for both
searches. -/
def slInsert (sl : SkipList) (member : Bytes) (score : Double) (lvl : ℕ) : Option SkipList := do
  let (_, update) ← slSearch sl member score sl.level sl.header fun _ => none
  match ← slFind sl member (sl.brk + 1) (← slForward sl 0 sl.header) with
  | some cur => do
    let (sl, _) ← slDelete sl member cur.score
    let (_, update) ← slSearch sl member score sl.level sl.header update
    slPlace sl member score lvl update
  | none => slPlace sl member score lvl update

/-- `sl_get_score`. -/
def slGetScore (sl : SkipList) (member : Bytes) : Option (Option Double) := do
  let n ← slFind sl member (sl.brk + 1) (← slForward sl 0 sl.header)
  some (n.map (·.score))

/-- The loop of `sl_get_rank`. -/
def slRankLoop (sl : SkipList) (member : Bytes) : ℕ → Int → Option Addr → Option Int
  | 0, _, _ => none
  | _ + 1, _, none => some (-1)
  | fuel + 1, rank, some x => do
    let n ← sl.mem x
    if strcmp n.member member = 0 then some rank
    else slRankLoop sl member fuel (rank + 1) (← slForward sl 0 x)

/-- `sl_get_rank`. -/
def slGetRank (sl : SkipList) (member : Bytes) : Option Int := do
  slRankLoop sl member (sl.brk + 1) 0 (← slForward sl 0 sl.header)

/-- `for (i = 0; i < start && x; i++) x = x->forward[0]`. -/
def slSkip (sl : SkipList) : ℕ → Option Addr → Option (Option Addr)
  | 0, x => some x
  | _ + 1, none => some none
  | k + 1, some x => do slSkip sl k (← slForward sl 0 x)

/-- The copying loop of `sl_range_by_rank`, over at most `k` nodes. -/
def slCopy (sl : SkipList) : ℕ → Option Addr → Option (List (Bytes × Double))
  | 0, _ => some []
  | _ + 1, none => some []
  | k + 1, some x => do
    let n ← sl.mem x
    some ((n.member, n.score) :: (← slCopy sl k (← slForward sl 0 x)))

/-- `sl_range_by_rank`. -/
def slRangeByRank (sl : SkipList) (start stop max : Int) : Option (List (Bytes × Double)) :=
  let start := if start < 0 then (sl.length : Int) + start else start
  let stop := if stop < 0 then (sl.length : Int) + stop else stop
  let start := if start < 0 then 0 else start
  let stop := if stop ≥ (sl.length : Int) then (sl.length : Int) - 1 else stop
  if start > stop then some []
  else do
    let x ← slSkip sl start.toNat (← slForward sl 0 sl.header)
    slCopy sl (min (stop - start + 1).toNat max.toNat) x

/-- The loop of `~SkipList`. -/
def slDestroyLoop : ℕ → Option Addr → SkipList → Option SkipList
  | 0, _, _ => none
  | _ + 1, none, sl => some sl
  | fuel + 1, some n, sl => do
    let next ← slForward sl 0 n
    slDestroyLoop fuel next (← slFree sl n)

/-- The destructor `SkipList::~SkipList`. -/
def slDestroy (sl : SkipList) : Option SkipList := slDestroyLoop (sl.brk + 2) (some sl.header) sl

/-- The call on the list, with its accesses. -/
def onList (sl : SkipList) : SlOp → Option (SkipList × Bool)
  | .insert member score lvl => (slInsert sl member score lvl).map fun sl => (sl, true)
  | .delete member score => slDelete sl member score

/-- A run of calls, with its accesses. -/
def run (sl : SkipList) : List SlOp → Option (SkipList × List Bool)
  | [] => some (sl, [])
  | op :: ops => do
    let r ← onList sl op
    let rest ← run r.1 ops
    some (rest.1, r.2 :: rest.2)

/-! ### Single accesses -/

section

variable {sl : SkipList} {x : Addr} {i : ℕ}

/-- A node with a height is live. -/
theorem mem_of_lt_height (h : i < slHeight sl x) : ∃ n, sl.mem x = some n ∧ i < n.level := by
  cases hn : sl.mem x with
  | none => simp [slHeight, slData, hn] at h
  | some n => exact ⟨n, rfl, by simpa [slHeight, slData, hn] using h⟩

/-- A pointer below the level of its node may be read. -/
theorem slForward_eq (h : i < slHeight sl x) :
    slForward sl i x = some (Minired.slForward sl i x) := by
  obtain ⟨n, hn, hi⟩ := mem_of_lt_height h
  simp [slForward, Minired.slForward, hn, hi]

/-- A pointer below the level of its node may be written. -/
theorem slSetForward_eq (h : i < slHeight sl x) (y : Option Addr) :
    slSetForward sl i x y = some (Minired.slSetForward sl i x y) := by
  obtain ⟨n, hn, hi⟩ := mem_of_lt_height h
  simp [slSetForward, Minired.slSetForward, hn, hi]

end

/-- The comparison with the member of a node that is there. -/
theorem addrIs_of_mem {sl : SkipList} {x : Addr} {n : SkipListNode} (hn : sl.mem x = some n)
    (member : Bytes) : addrIs sl member x = decide (strcmp n.member member = 0) := by
  simp [addrIs, hn]

/-- A node that is there may be deleted. -/
theorem slFree_eq {sl : SkipList} {x : Addr} (h : (sl.mem x).isSome) :
    slFree sl x = some { sl with mem := Function.update sl.mem x none } := by
  obtain ⟨n, hn⟩ := Option.isSome_iff_exists.mp h
  simp [slFree, hn]

/-! ### Searching -/

section Search

variable {sl : SkipList} (member : Bytes) (score : Double)

/-- The loop on one level stays on nodes of the level. -/
theorem slWalk_eq {i : ℕ} {x : Addr} {ys : List Addr} (h : Linked (Minired.slForward sl i) x ys)
    (hhigh : ∀ a ∈ x :: ys, i < slHeight sl a) {fuel : ℕ} (hfuel : ys.length ≤ fuel) :
    slWalk sl member score i (fuel + 1) x =
      some (walk (Minired.slForward sl i) (addrBefore sl member score) fuel x) := by
  rw [Chain.walk_eq h _ hfuel]
  induction ys generalizing x fuel with
  | nil =>
    rw [slWalk, slForward_eq (hhigh x List.mem_cons_self), linked_nil.mp h]
    rfl
  | cons y ys ih =>
    obtain ⟨n, hn, -⟩ := mem_of_lt_height (hhigh y (by simp))
    have hbefore : addrBefore sl member score y = nodeBefore member score n := by
      simp [addrBefore, hn]
    rw [slWalk, slForward_eq (hhigh x List.mem_cons_self), h.1]
    simp only [Option.bind_eq_bind, Option.bind_some, hn]
    by_cases hp : nodeBefore member score n = true
    · rw [if_pos hp, List.takeWhile_cons_of_pos (hbefore.trans hp), List.getLastD_cons]
      cases fuel with
      | zero => exact absurd hfuel (by simp)
      | succ fuel =>
        exact ih h.2 (fun a ha => hhigh a (List.mem_cons_of_mem x ha)) (by simpa using hfuel)
    · rw [if_neg hp, List.takeWhile_cons_of_neg (by rwa [hbefore])]
      rfl

end Search

/-- What the accesses need of a list, on top of its linked structure. -/
structure Kept (sl : SkipList) (L : List Addr) : Prop extends sl.Repr L where
  header_height : slHeight sl sl.header = SKIPLIST_MAX_LEVEL
  level_le : sl.level ≤ SKIPLIST_MAX_LEVEL
  /-- Nothing is allocated that is not part of the list. -/
  owned : ∀ a, (sl.mem a).isSome → a ∈ sl.header :: L

section Kept

variable {sl : SkipList} {L : List Addr} (hK : Kept sl L)

include hK

/-- The pointers that are links of a level may be read. -/
theorem Kept.lt_height {i : ℕ} (hi : i < SKIPLIST_MAX_LEVEL) {a : Addr}
    (ha : a ∈ sl.header :: L.filter fun a => i < slHeight sl a) : i < slHeight sl a := by
  rcases List.mem_cons.mp ha with rfl | ha
  · rw [hK.header_height]
    exact hi
  · simpa using (List.mem_filter.mp ha).2

/-- **The search** from a node of level `i` down writes what the unchecked one does, on the levels
below `lv`. -/
theorem Kept.slSearch_from (member : Bytes) (score : Double) {lv i : ℕ} (hi : i ≤ lv)
    (hlv : lv ≤ SKIPLIST_MAX_LEVEL) {x : Addr}
    (hx : x = sl.header ∨ x ∈ L ∧ i ≤ slHeight sl x) (update : Update) (written : ℕ → Addr)
    (hupd : ∀ j, i ≤ j → j < lv → update j = some (written j))
    (hend : i < lv → update i = some x) :
    ∃ x' update', slSearch sl member score i x update = some (x', update') ∧
      (∀ j, j < lv → update' j = some (descend (Minired.slForward sl)
        (addrBefore sl member score) sl.brk i x written j)) ∧
      (0 < lv → update' 0 = some x') := by
  induction i generalizing x update written with
  | zero => exact ⟨x, update, rfl, fun j => hupd j (Nat.zero_le j), hend⟩
  | succ i ih =>
    have hmem : x ∈ sl.header :: L.filter fun a => i < slHeight sl a := by
      rcases hx with rfl | ⟨hx, hhigh⟩
      · exact List.mem_cons_self
      · exact List.mem_cons_of_mem _ (List.mem_filter.mpr ⟨hx, by simpa using hhigh⟩)
    obtain ⟨zs, hzs, hsuffix⟩ := (hK.towers i).suffix hmem
    have hsub : ∀ a ∈ x :: zs, a ∈ sl.header :: L.filter fun a => i < slHeight sl a := by
      intro a ha
      rcases List.mem_cons.mp ha with rfl | ha
      · exact hmem
      · exact List.mem_cons_of_mem _ (hsuffix.subset ha)
    have hlen : zs.length ≤ sl.brk :=
      hsuffix.length_le.trans ((List.length_filter_le _ _).trans hK.fuel)
    have hwalk := slWalk_eq member score hzs
      (fun a ha => hK.lt_height (by omega) (hsub a ha)) hlen
    set x' := walk (Minired.slForward sl i) (addrBefore sl member score) sl.brk x with hx'
    have hwrite : setUpdate update i x' = some (Function.update update i (some x')) :=
      if_pos (by omega)
    rw [slSearch, hwalk]
    simp only [Option.bind_eq_bind, Option.bind_some, hwrite]
    refine ih (by omega) ?_ _ (Function.update written i x') (fun j hj hjlv => ?_)
      fun _ => Function.update_self ..
    · -- the walk has ended on a node of the level
      have hx'mem := hsub x' (walk_mem hzs _ _)
      rcases List.mem_cons.mp hx'mem with h | h
      · exact Or.inl h
      · have hboth := List.mem_filter.mp h
        exact Or.inr ⟨hboth.1, (by simpa using hboth.2 : i < slHeight sl x').le⟩
    · by_cases hji : j = i
      · rw [hji, Function.update_self, Function.update_self]
      · rw [Function.update_of_ne hji, Function.update_of_ne hji]
        exact hupd j (by omega) hjlv

/-- **The search** ends at the node it has written last, with `update[]` written on the levels
of the list. -/
theorem Kept.slSearch_eq (member : Bytes) (score : Double) (update : Update)
    (written : ℕ → Addr) :
    ∃ x update', slSearch sl member score sl.level sl.header update = some (x, update') ∧
      (∀ j, j < sl.level → update' j = some (Minired.slSearch sl member score written j)) ∧
      x = Minired.slSearch sl member score written 0 := by
  obtain ⟨x, update', hsearch, hupd, hend⟩ := hK.slSearch_from member score le_rfl hK.level_le
    (Or.inl rfl) update written
    (fun j hj hlt => absurd hlt (not_lt.mpr hj)) fun h => absurd h (lt_irrefl _)
  refine ⟨x, update', hsearch, hupd, ?_⟩
  exact Option.some.inj ((hend hK.level_pos).symm.trans (hupd 0 hK.level_pos))

end Kept

/-! ### Deletion -/

/-- Writing a pointer keeps the heights. -/
@[simp] theorem slHeight_setForward (sl : SkipList) (i : ℕ) (x : Addr) (y : Option Addr)
    (a : Addr) : slHeight (Minired.slSetForward sl i x y) a = slHeight sl a :=
  slHeight_congr (slData_setForward ..)

/-- The unlinking loop writes pointers only. -/
theorem sameData_slUnlink (x : Addr) (update : ℕ → Addr) (k i : ℕ) (sl : SkipList) :
    SameData sl (Minired.slUnlink x update k i sl) := by
  induction k generalizing i sl with
  | zero => exact fun _ => rfl
  | succ k ih =>
    rw [Minired.slUnlink]
    split
    · exact fun a => (ih (i + 1) _ a).trans (slData_setForward ..)
    · exact fun _ => rfl

/-- **The unlinking loop** reads pointers of the node only where it is linked. -/
theorem slUnlink_eq (x : Addr) {update : Update} (written : ℕ → Addr) (k i : ℕ) (sl : SkipList)
    (hupd : ∀ j, i ≤ j → j < i + k → update j = some (written j))
    (hpred : ∀ j, i ≤ j → j < i + k → j < slHeight sl (written j))
    (hnode : ∀ j, i ≤ j → j < i + k → Minired.slForward sl j (written j) = some x →
      j < slHeight sl x) :
    slUnlink x update k i sl = some (Minired.slUnlink x written k i sl) := by
  induction k generalizing i sl with
  | zero => rfl
  | succ k ih =>
    have hi := hpred i le_rfl (by omega)
    rw [slUnlink, Minired.slUnlink, hupd i le_rfl (by omega)]
    simp only [Option.bind_eq_bind, Option.bind_some, slForward_eq hi]
    by_cases hlink : Minired.slForward sl i (written i) = some x
    · have hx := hnode i le_rfl (by omega) hlink
      rw [if_pos hlink, if_pos hlink, slForward_eq hx, Option.bind_some, slSetForward_eq hi,
        Option.bind_some]
      obtain ⟨n, hn, -⟩ := mem_of_lt_height hi
      -- the levels above are as before
      refine ih (i + 1) _ (fun j hj hlt => hupd j (by omega) (by omega)) (fun j hj hlt => ?_)
        fun j hj hlt hlink' => ?_
      · rw [slHeight_setForward]
        exact hpred j (by omega) (by omega)
      · rw [slForward_setForward _ _ _ _ (by rw [hn]; rfl), if_neg (by omega)] at hlink'
        rw [slHeight_setForward]
        exact hnode j (by omega) (by omega) hlink'
    · rw [if_neg hlink, if_neg hlink]

/-- Lowering the level looks at pointers that the header has. -/
theorem slLowerLevel_eq {sl : SkipList} {l : ℕ} (hl : l ≤ slHeight sl sl.header) :
    slLowerLevel sl l = some (Minired.slLowerLevel sl l) := by
  induction l with
  | zero => rfl
  | succ l ih =>
    cases l with
    | zero => rfl
    | succ l =>
      rw [slLowerLevel, Minired.slLowerLevel, slForward_eq (by omega)]
      cases hf : Minired.slForward sl (l + 1) sl.header with
      | none => simpa using ih (by omega)
      | some y => simp

/-- The level is only lowered. -/
theorem slLowerLevel_le (sl : SkipList) (l : ℕ) : Minired.slLowerLevel sl l ≤ l := by
  induction l with
  | zero => exact le_rfl
  | succ l ih =>
    cases l with
    | zero => exact le_rfl
    | succ l =>
      rw [Minired.slLowerLevel]
      split
      · exact ih.trans (Nat.le_succ _)
      · exact le_rfl

/-- What is recorded on a level is a node that has a pointer there. -/
theorem Kept.recorded_height {sl : SkipList} {A₁ B₁ : List Addr} (hK : Kept sl (A₁ ++ B₁)) {j : ℕ}
    (hj : j < SKIPLIST_MAX_LEVEL) :
    j < slHeight sl ((A₁.filter fun a => j < slHeight sl a).getLastD sl.header) := by
  refine hK.lt_height hj ?_
  rw [List.filter_append, ← List.getLast_eq_getLastD (List.cons_ne_nil _ _)]
  exact List.cons_subset_cons _ (List.subset_append_left _ _) (List.getLast_mem _)

/-- The header keeps its pointers when a node is taken out. -/
theorem Kept.removed_header {sl sl' : SkipList} {A₁ B₂ : List Addr} {x : Addr}
    {update : ℕ → Addr} (hK : Kept sl (A₁ ++ x :: B₂)) (h : Removed sl sl' x update) :
    slHeight sl' sl'.header = SKIPLIST_MAX_LEVEL := by
  have hne : sl.header ≠ x := fun heq => hK.toRepr.without.1 (heq ▸ List.mem_cons_self)
  rw [h.header_eq, slHeight_congr (h.data_old _ hne), hK.header_height]

/-- Taking a node out leaves a list that owns all there is. -/
theorem Kept.of_removed {sl sl' : SkipList} {A₁ B₂ : List Addr} {x : Addr} {update : ℕ → Addr}
    (hK : Kept sl (A₁ ++ x :: B₂)) (h : Removed sl sl' x update)
    (hupd : ∀ j, j < sl.level → update j =
      (A₁.filter fun a => j < slHeight sl a).getLastD sl.header) :
    Kept { sl' with level := Minired.slLowerLevel sl' sl'.level } (A₁ ++ B₂) where
  toRepr := h.repr hK.toRepr hupd
  header_height := by
    change slHeight sl' sl'.header = SKIPLIST_MAX_LEVEL
    exact hK.removed_header h
  level_le := (slLowerLevel_le sl' sl'.level).trans (h.level_eq ▸ hK.level_le)
  owned := by
    intro a ha
    change (sl'.mem a).isSome at ha
    have hax : a ≠ x := by
      rintro rfl
      rw [h.freed] at ha
      exact absurd ha (by decide)
    -- it was there before
    rw [← slData_isSome, h.data_old a hax, slData_isSome] at ha
    have hmem := hK.owned a ha
    change a ∈ sl'.header :: (A₁ ++ B₂)
    rw [h.header_eq]
    simp only [List.mem_cons, List.mem_append] at hmem ⊢
    tauto

/-- **`sl_delete`** makes no access it must not make, and leaves nothing behind. -/
theorem Kept.slDelete_eq {sl : SkipList} {L : List Addr} (hK : Kept sl L) (member : Bytes)
    (score : Double) :
    slDelete sl member score = some (Minired.slDelete sl member score) ∧
      ∃ L', Kept (Minired.slDelete sl member score).1 L' := by
  obtain ⟨A₁, B₁, rfl, hupd, -, -⟩ := slSearch_spec hK.toRepr member score fun _ => 0
  obtain ⟨p, update, hsearch, hwritten, rfl⟩ :=
    hK.slSearch_eq member score (fun _ => none) fun _ => 0
  have hpred : ∀ j, j < sl.level →
      j < slHeight sl (Minired.slSearch sl member score (fun _ => 0) j) := by
    intro j hj
    rw [hupd j hj]
    exact hK.recorded_height (hj.trans_le hK.level_le)
  -- `update[0]` is the last node before the position, or the header
  have hzero : Linked (Minired.slForward sl 0)
      (Minired.slSearch sl member score (fun _ => 0) 0) B₁ := by
    have hlink := hK.towers 0
    rw [List.filter_append] at hlink
    have htail := hlink.tail
    rwa [← hupd 0 hK.level_pos, List.filter_eq_self.mpr fun a ha => by
      simpa using hK.height_pos a (List.mem_append_right A₁ ha)] at htail
  rw [slDelete, Minired.slDelete, hsearch]
  simp only [Option.bind_eq_bind, Option.bind_some, slForward_eq (hpred 0 hK.level_pos)]
  cases B₁ with
  | nil =>
    rw [linked_nil.mp hzero]
    exact ⟨rfl, A₁ ++ [], hK⟩
  | cons x B₂ =>
    rw [hzero.1]
    obtain ⟨n, hn⟩ := Option.isSome_iff_exists.mp
      (hK.live x (List.mem_cons_of_mem _ (List.mem_append_right A₁ List.mem_cons_self)))
    have his := addrIs_of_mem hn member
    simp only [hn, Option.bind_some, his, decide_eq_true_eq]
    by_cases hx : strcmp n.member member = 0
    · have hremoved := slDelete_removed hK.toRepr hupd rfl
      have hkept := hK.of_removed hremoved hupd
      -- the node has a pointer on the levels on which it is linked
      have hunlink := slUnlink_eq x (Minired.slSearch sl member score fun _ => 0) sl.level 0 sl
        (fun j _ hj => hwritten j (by omega)) (fun j _ hj => hpred j (by omega))
        fun j _ hj => (linked_iff_height hK.toRepr (hupd j (by omega))).mp
      have hsame := sameData_slUnlink x (Minired.slSearch sl member score fun _ => 0) sl.level 0 sl
      have hlive : ((Minired.slUnlink x (Minired.slSearch sl member score fun _ => 0) sl.level 0
          sl).mem x).isSome := by
        rw [hsame.isSome, hn]
        rfl
      have hlower := slLowerLevel_eq ((hremoved.level_eq.le.trans hK.level_le).trans
        (hK.removed_header hremoved).ge)
      simp only [if_pos hx, hunlink, Option.bind_some, slFree_eq hlive]
      rw [hlower]
      exact ⟨rfl, A₁ ++ B₂, hkept⟩
    · simp only [if_neg hx]
      exact ⟨trivial, A₁ ++ x :: B₂, hK⟩

/-! ### The level-0 chain -/

/-- A chain can be followed. -/
theorem follows_of_linked {A : Type*} {next : A → Option A} {x : A} {ys : List A}
    (h : Linked next x ys) : Follows next (next x) ys := by
  induction ys generalizing x with
  | nil => exact h
  | cons y ys ih => exact ⟨h.1, ih h.2⟩

/-- What the first pointer of the header leads to. -/
theorem Kept.first {sl : SkipList} {L : List Addr} (hK : Kept sl L) :
    slForward sl 0 sl.header = some (Minired.slForward sl 0 sl.header) ∧
      Follows (Minired.slForward sl 0) (Minired.slForward sl 0 sl.header) L := by
  refine ⟨slForward_eq ?_, follows_of_linked hK.linked⟩
  rw [hK.header_height]
  decide

/-- The loop that looks for a member. -/
theorem slFind_eq {sl : SkipList} {p : Option Addr} {ys : List Addr}
    (h : Follows (Minired.slForward sl 0) p ys) (hpos : ∀ a ∈ ys, 0 < slHeight sl a)
    (member : Bytes) {fuel : ℕ} (hfuel : ys.length ≤ fuel) :
    slFind sl member (fuel + 1) p = some ((ys.find? (addrIs sl member)).bind sl.mem) := by
  induction ys generalizing p fuel with
  | nil =>
    rw [follows_nil.mp h]
    rfl
  | cons y ys ih =>
    have hy := hpos y List.mem_cons_self
    obtain ⟨n, hn, -⟩ := mem_of_lt_height hy
    have his := addrIs_of_mem hn member
    rw [h.1, slFind, hn]
    simp only [Option.bind_eq_bind, Option.bind_some]
    by_cases hm : strcmp n.member member = 0
    · rw [if_pos hm, List.find?_cons_of_pos (by rw [his, decide_eq_true hm]), Option.bind_some, hn]
    · rw [if_neg hm, List.find?_cons_of_neg (by rw [his]; simpa using hm), slForward_eq hy,
        Option.bind_some]
      cases fuel with
      | zero => exact absurd hfuel (by simp)
      | succ fuel =>
        exact ih h.2 (fun a ha => hpos a (List.mem_cons_of_mem y ha)) (by simpa using hfuel)

/-! ### Insertion -/

/-- The loop that records the header on the new levels. -/
theorem slExtend_eq (header : Addr) (k i : ℕ) (update : Update)
    (hk : i + k ≤ SKIPLIST_MAX_LEVEL) :
    ∃ update', slExtend header k i update = some update' ∧
      ∀ j, update' j = if i ≤ j ∧ j < i + k then some header else update j := by
  induction k generalizing i update with
  | zero =>
    refine ⟨update, rfl, fun j => ?_⟩
    rw [if_neg (by omega)]
  | succ k ih =>
    -- the level is below the bound, so the write is inside `update`
    have hwrite : setUpdate update i header = some (Function.update update i (some header)) :=
      if_pos (by omega)
    obtain ⟨update', hrun, hupd⟩ :=
      ih (i + 1) (Function.update update i (some header)) (by omega)
    refine ⟨update', ?_, fun j => ?_⟩
    · rw [slExtend, hwrite]
      exact hrun
    · rw [hupd]
      by_cases hj : j = i
      · subst hj
        rw [if_neg (by omega), if_pos (by omega), Function.update_self]
      · rw [Function.update_of_ne hj]
        by_cases hin : i + 1 ≤ j ∧ j < i + 1 + k
        · rw [if_pos hin, if_pos (by omega)]
        · rw [if_neg hin, if_neg (by omega)]

/-- **The linking loop** writes pointers that the nodes have. -/
theorem slLink_eq {n : Addr} {update : Update} {written : ℕ → Addr} (k i : ℕ) (sl : SkipList)
    (hupd : ∀ j, i ≤ j → j < i + k → update j = some (written j))
    (hpred : ∀ j, i ≤ j → j < i + k → j < slHeight sl (written j))
    (hnode : ∀ j, i ≤ j → j < i + k → j < slHeight sl n) :
    slLink n update k i sl = some ((List.range' i k).foldl (fun sl i =>
      Minired.slSetForward (Minired.slSetForward sl i n (Minired.slForward sl i (written i))) i
        (written i) (some n)) sl) := by
  induction k generalizing i sl with
  | zero => rfl
  | succ k ih =>
    have hi := hpred i le_rfl (by omega)
    rw [slLink, hupd i le_rfl (by omega)]
    simp only [Option.bind_eq_bind, Option.bind_some, slForward_eq hi]
    rw [slSetForward_eq (hnode i le_rfl (by omega)), Option.bind_some,
      slSetForward_eq (by rwa [slHeight_setForward]), Option.bind_some, List.range'_succ,
      List.foldl_cons]
    refine ih (i + 1) _ (fun j hj hlt => hupd j (by omega) (by omega)) (fun j hj hlt => ?_)
      fun j hj hlt => ?_
    · rw [slHeight_setForward, slHeight_setForward]
      exact hpred j (by omega) (by omega)
    · rw [slHeight_setForward, slHeight_setForward]
      exact hnode j (by omega) (by omega)

/-- Putting a node in leaves a list that owns all there is. -/
theorem Kept.of_inserted {sl sl' : SkipList} {A₁ B₁ : List Addr} {member : Bytes} {score : Double}
    {lvl : ℕ} {update : ℕ → Addr} (hK : Kept sl (A₁ ++ B₁))
    (h : Inserted sl sl' member score lvl update) (hlvl : 0 < lvl) (hmax : lvl ≤ SKIPLIST_MAX_LEVEL)
    (hfresh : sl.brk ∉ sl.header :: (A₁ ++ B₁))
    (hupd : ∀ j, j < lvl → update j =
      (A₁.filter fun a => j < slHeight sl a).getLastD sl.header) :
    Kept sl' (A₁ ++ sl.brk :: B₁) where
  toRepr := h.repr hK.toRepr hlvl hfresh hupd
  header_height := by
    have hne : sl.header ≠ sl.brk := fun heq => hfresh (heq ▸ List.mem_cons_self)
    rw [h.header_eq, slHeight_congr (h.data_old _ hne), hK.header_height]
  level_le := h.level_eq ▸ max_le hK.level_le hmax
  owned := by
    intro a ha
    rw [h.header_eq]
    by_cases hab : a = sl.brk
    · simp [hab]
    · rw [← slData_isSome, h.data_old a hab, slData_isSome] at ha
      have hmem := hK.owned a ha
      simp only [List.mem_cons, List.mem_append] at hmem ⊢
      tauto

/-- **The end of `sl_insert`** makes no access it must not make: what it uses of `update[]` was
written, by the search or as the header, and is a node of the list. -/
theorem Kept.slPlace_eq {sl : SkipList} {A₁ B₁ : List Addr} (hK : Kept sl (A₁ ++ B₁))
    (member : Bytes) (score : Double) {lvl : ℕ} (hlvl : 0 < lvl) (hmax : lvl ≤ SKIPLIST_MAX_LEVEL)
    {update : Update} {written : ℕ → Addr} (hupd : ∀ j, j < sl.level → update j = some (written j))
    (hwritten : ∀ j, j < sl.level → written j =
      (A₁.filter fun a => j < slHeight sl a).getLastD sl.header) :
    slPlace sl member score lvl update = some (Minired.slPlace sl member score lvl written) ∧
      ∃ L', Kept (Minired.slPlace sl member score lvl written) L' := by
  have hfresh : sl.brk ∉ sl.header :: (A₁ ++ B₁) := by
    intro ha
    have hlive := hK.live _ ha
    rw [hK.fresh _ le_rfl] at hlive
    exact absurd hlive (by decide)
  have hrecorded : ∀ j, j < lvl → slRecorded sl lvl written j =
      (A₁.filter fun a => j < slHeight sl a).getLastD sl.header :=
    fun j hj => slRecorded_eq hK.toRepr hwritten hj
  have hmem : ∀ j, j < lvl → slRecorded sl lvl written j ∈ sl.header :: (A₁ ++ B₁) := by
    intro j hj
    rw [hrecorded j hj]
    exact List.cons_subset_cons _ (List.subset_append_left A₁ B₁) (getLastD_filter_mem ..)
  have hold : ∀ j, j < lvl → slRecorded sl lvl written j ≠ sl.brk :=
    fun j hj heq => hfresh (heq ▸ hmem j hj)
  have hinserted := slPlace_inserted member score (fun j hj => hK.live _ (hmem j hj)) hold
  refine ⟨?_, A₁ ++ sl.brk :: B₁, hK.of_inserted hinserted hlvl hmax hfresh hrecorded⟩
  obtain ⟨update', hextend, hupd'⟩ := slExtend_eq sl.header (lvl - sl.level) sl.level update (by
    have := hK.level_le
    omega)
  -- what the linking loop finds in `update[]`
  have hfound : ∀ j, j < lvl → update' j = some (slRecorded sl lvl written j) := by
    intro j hj
    rw [hupd', slRecorded]
    by_cases hjl : sl.level ≤ j
    · rw [if_pos (by omega), if_pos (by omega), Minired.slExtend, if_pos ⟨hjl, hj⟩]
    · rw [if_neg (by omega), hupd j (by omega)]
      split
      · rw [Minired.slExtend, if_neg (by omega)]
      · rfl
  -- the new node is the only one whose level is new
  have hheight : ∀ a, a ≠ sl.brk → slHeight (slAlloc sl member score lvl) a = slHeight sl a :=
    fun a ha => slHeight_congr (by rw [slData_slAlloc, if_neg ha])
  have hnew : slHeight (slAlloc sl member score lvl) sl.brk = lvl := by
    rw [slHeight, slData_slAlloc, if_pos rfl]
    rfl
  have hlink := slLink_eq lvl 0 (slAlloc sl member score lvl) (n := sl.brk)
    (fun j _ hj => hfound j (by omega))
    (fun j _ hj => by
      rw [hheight _ (hold j (by omega)), hrecorded j (by omega)]
      exact hK.recorded_height (by omega))
    fun j _ hj => by omega
  rw [← List.range_eq_range'] at hlink
  rw [Minired.slPlace_eq, slPlace, hextend]
  by_cases hraise : sl.level < lvl
  · rw [slAlloc, max_eq_right hraise.le] at hlink ⊢
    simp only [hraise, if_true, Option.bind_eq_bind, Option.bind_some, hlink]
    rfl
  · rw [slAlloc, max_eq_left (not_lt.mp hraise)] at hlink ⊢
    simp only [hraise, if_false, Option.bind_eq_bind, Option.bind_some, hlink]
    rfl

/-- A search, and the end of `sl_insert` behind it. -/
theorem Kept.slPlace_search {sl : SkipList} {L : List Addr} (hK : Kept sl L) (member : Bytes)
    (score : Double) {lvl : ℕ} (hlvl : 0 < lvl) (hmax : lvl ≤ SKIPLIST_MAX_LEVEL)
    {update : Update} {written : ℕ → Addr} (hupd : ∀ j, j < sl.level →
      update j = some (Minired.slSearch sl member score written j)) :
    slPlace sl member score lvl update =
        some (Minired.slPlace sl member score lvl (Minired.slSearch sl member score written)) ∧
      ∃ L', Kept (Minired.slPlace sl member score lvl
        (Minired.slSearch sl member score written)) L' := by
  obtain ⟨A₁, B₁, rfl, hrec, -, -⟩ := slSearch_spec hK.toRepr member score written
  exact hK.slPlace_eq member score hlvl hmax hupd hrec

/-- **`sl_insert`** makes no access it must not make, and leaves nothing behind. When it deletes a
node of the member first, `update[]` may keep addresses that are gone, on the levels that went with
it; they are written again before they are used. -/
theorem Kept.slInsert_eq {sl : SkipList} {L : List Addr} (hK : Kept sl L) (member : Bytes)
    (score : Double) {lvl : ℕ} (hlvl : 0 < lvl) (hmax : lvl ≤ SKIPLIST_MAX_LEVEL) :
    slInsert sl member score lvl = some (Minired.slInsert sl member score lvl) ∧
      ∃ L', Kept (Minired.slInsert sl member score lvl) L' := by
  obtain ⟨p, update, hsearch, hupd, -⟩ :=
    hK.slSearch_eq member score (fun _ => none) fun _ => 0
  obtain ⟨hfirst, hfollows⟩ := hK.first
  have hfind := slFind_eq hfollows hK.height_pos member hK.fuel
  rw [← firstFrom_eq hK.linked _ hK.fuel] at hfind
  rw [slInsert, Minired.slInsert, hsearch]
  simp only [Option.bind_eq_bind, Option.bind_some, hfirst, hfind]
  cases hf : (firstFrom (Minired.slForward sl 0) (addrIs sl member) sl.brk sl.header).bind
      sl.mem with
  | none => exact hK.slPlace_search member score hlvl hmax hupd
  | some cur =>
    obtain ⟨hdel, L', hK'⟩ := hK.slDelete_eq member cur.score
    obtain ⟨p', update', hsearch', hupd', -⟩ := hK'.slSearch_eq member score update
      (Minired.slSearch sl member score fun _ => 0)
    simp only [hdel, Option.bind_some, hsearch']
    exact hK'.slPlace_search member score hlvl hmax hupd'

/-! ### Reading -/

section Read

variable {sl : SkipList} {p : Option Addr} {ys : List Addr}

/-- The loop that counts the nodes in front of a member. -/
theorem slRankLoop_eq (h : Follows (Minired.slForward sl 0) p ys)
    (hpos : ∀ a ∈ ys, 0 < slHeight sl a) (member : Bytes) {fuel : ℕ} (hfuel : ys.length ≤ fuel)
    (rank : Int) : slRankLoop sl member (fuel + 1) rank p =
      some (Minired.slRankLoop sl member (fuel + 1) rank p) := by
  induction ys generalizing p fuel rank with
  | nil =>
    rw [follows_nil.mp h]
    rfl
  | cons y ys ih =>
    have hy := hpos y List.mem_cons_self
    obtain ⟨n, hn, -⟩ := mem_of_lt_height hy
    have his := addrIs_of_mem hn member
    rw [h.1, slRankLoop, Minired.slRankLoop, hn, his]
    simp only [Option.bind_eq_bind, Option.bind_some, decide_eq_true_eq]
    by_cases hm : strcmp n.member member = 0
    · rw [if_pos hm, if_pos hm]
    · rw [if_neg hm, if_neg hm, slForward_eq hy, Option.bind_some]
      cases fuel with
      | zero => exact absurd hfuel (by simp)
      | succ fuel =>
        exact ih h.2 (fun a ha => hpos a (List.mem_cons_of_mem y ha)) (by simpa using hfuel) _

/-- The loop to the first node of a range stays in the list. -/
theorem slSkip_eq (h : Follows (Minired.slForward sl 0) p ys)
    (hpos : ∀ a ∈ ys, 0 < slHeight sl a) (k : ℕ) :
    slSkip sl k p = some (Minired.slSkip sl k p) ∧
      ∃ zs, Follows (Minired.slForward sl 0) (Minired.slSkip sl k p) zs ∧ zs ⊆ ys := by
  induction k generalizing p ys with
  | zero =>
    cases p with
    | none => exact ⟨rfl, ys, h, List.Subset.refl ys⟩
    | some x => exact ⟨rfl, ys, h, List.Subset.refl ys⟩
  | succ k ih =>
    cases ys with
    | nil =>
      rw [follows_nil.mp h]
      exact ⟨rfl, [], rfl, List.Subset.refl []⟩
    | cons y ys =>
      obtain ⟨hskip, zs, hzs, hsub⟩ :=
        ih h.2 fun a ha => hpos a (List.mem_cons_of_mem y ha)
      rw [h.1, slSkip, Minired.slSkip, slForward_eq (hpos y List.mem_cons_self)]
      exact ⟨hskip, zs, hzs, List.subset_cons_of_subset y hsub⟩

/-- The copying loop stays in the list. -/
theorem slCopy_eq (h : Follows (Minired.slForward sl 0) p ys)
    (hpos : ∀ a ∈ ys, 0 < slHeight sl a) (k : ℕ) :
    slCopy sl k p = some (Minired.slCopy sl k p) := by
  induction k generalizing p ys with
  | zero => cases p <;> rfl
  | succ k ih =>
    cases ys with
    | nil =>
      rw [follows_nil.mp h]
      rfl
    | cons y ys =>
      have hy := hpos y List.mem_cons_self
      obtain ⟨n, hn, -⟩ := mem_of_lt_height hy
      rw [h.1, slCopy, Minired.slCopy, hn, slForward_eq hy]
      simp only [Option.bind_eq_bind, Option.bind_some]
      rw [ih h.2 fun a ha => hpos a (List.mem_cons_of_mem y ha), Option.bind_some]

end Read

section

variable {sl : SkipList} {L : List Addr} (hK : Kept sl L)

include hK

/-- `sl_get_score` makes good accesses only. -/
theorem Kept.slGetScore_eq (member : Bytes) :
    slGetScore sl member = some (Minired.slGetScore sl member) := by
  obtain ⟨hfirst, hfollows⟩ := hK.first
  have hfind := slFind_eq hfollows hK.height_pos member hK.fuel
  rw [← firstFrom_eq hK.linked _ hK.fuel] at hfind
  rw [slGetScore, hfirst]
  simp only [Option.bind_eq_bind, Option.bind_some, hfind]
  rfl

/-- So does `sl_get_rank`. -/
theorem Kept.slGetRank_eq (member : Bytes) :
    slGetRank sl member = some (Minired.slGetRank sl member) := by
  obtain ⟨hfirst, hfollows⟩ := hK.first
  rw [slGetRank, hfirst]
  exact slRankLoop_eq hfollows hK.height_pos member hK.fuel 0

/-- So does `sl_range_by_rank`. -/
theorem Kept.slRangeByRank_eq (start stop max : Int) :
    slRangeByRank sl start stop max = some (Minired.slRangeByRank sl start stop max) := by
  obtain ⟨hfirst, hfollows⟩ := hK.first
  have hread : ∀ skip count : ℕ,
      (slSkip sl skip (Minired.slForward sl 0 sl.header)).bind (slCopy sl count) =
        some (Minired.slCopy sl count
          (Minired.slSkip sl skip (Minired.slForward sl 0 sl.header))) := by
    intro skip count
    obtain ⟨hskip, zs, hzs, hsub⟩ := slSkip_eq hfollows hK.height_pos skip
    rw [hskip, Option.bind_some]
    exact slCopy_eq hzs (fun a ha => hK.height_pos a (hsub ha)) count
  simp only [slRangeByRank, Minired.slRangeByRank, hfirst, Option.bind_eq_bind, Option.bind_some,
    hread, apply_ite some]

end

/-! ### The destructor -/

/-- The loop of the destructor deletes the nodes of the chain, each after its pointer was read. -/
theorem slDestroyLoop_eq (sl : SkipList) {p : Option Addr} {ys : List Addr}
    (h : Follows (Minired.slForward sl 0) p ys) (hnd : ys.Nodup)
    (hpos : ∀ a ∈ ys, 0 < slHeight sl a) {fuel : ℕ} (hfuel : ys.length ≤ fuel) :
    ∃ sl', slDestroyLoop (fuel + 1) p sl = some sl' ∧
      ∀ a, sl'.mem a = if a ∈ ys then none else sl.mem a := by
  induction ys generalizing sl p fuel with
  | nil =>
    rw [follows_nil.mp h]
    exact ⟨sl, rfl, fun a => (if_neg List.not_mem_nil).symm⟩
  | cons y ys ih =>
    have hy := hpos y List.mem_cons_self
    obtain ⟨n, hn, -⟩ := mem_of_lt_height hy
    obtain ⟨hyys, hnd⟩ := List.nodup_cons.mp hnd
    have hne : ∀ a ∈ ys, a ≠ y := fun a ha heq => hyys (heq ▸ ha)
    rw [h.1, slDestroyLoop, slForward_eq hy, slFree_eq (by rw [hn]; rfl)]
    simp only [Option.bind_eq_bind, Option.bind_some]
    cases fuel with
    | zero => exact absurd hfuel (by simp)
    | succ fuel =>
      -- the rest of the chain does not need the node
      have hdata : ∀ a ∈ ys,
          slData { sl with mem := Function.update sl.mem y none } a = slData sl a :=
        fun a ha => by simp [slData, hne a ha]
      obtain ⟨sl', hrun, hmem⟩ := ih { sl with mem := Function.update sl.mem y none }
        (h.2.congr fun a ha => by simp [Minired.slForward, hne a ha]) hnd
        (fun a ha => by
          rw [slHeight_congr (hdata a ha)]
          exact hpos a (List.mem_cons_of_mem y ha)) (by simpa using hfuel)
      refine ⟨sl', hrun, fun a => (hmem a).trans ?_⟩
      by_cases hay : a = y
      · simp [hay]
      · simp [hay]

/-- **The destructor** frees everything there is. -/
theorem Kept.slDestroy_eq {sl : SkipList} {L : List Addr} (hK : Kept sl L) :
    ∃ sl', slDestroy sl = some sl' ∧ ∀ a, sl'.mem a = none := by
  have hheader : 0 < slHeight sl sl.header := by
    rw [hK.header_height]
    decide
  have hchain : Follows (Minired.slForward sl 0) (some sl.header) (sl.header :: L) :=
    ⟨rfl, hK.first.2⟩
  obtain ⟨sl', hrun, hmem⟩ := slDestroyLoop_eq sl hchain hK.nodup
    (fun a ha => by
      rcases List.mem_cons.mp ha with rfl | ha
      · exact hheader
      · exact hK.height_pos a ha) (Nat.succ_le_succ hK.fuel)
  refine ⟨sl', hrun, fun a => ?_⟩
  rw [hmem]
  split
  · rfl
  · next ha => exact Option.not_isSome_iff_eq_none.mp fun hlive => ha (hK.owned a hlive)

/-! ### Runs -/

/-- A new list is kept. -/
theorem kept_slNew : Kept slNew [] where
  toRepr := repr_slNew
  header_height := rfl
  level_le := by decide
  owned := by
    intro a ha
    by_cases h0 : a = 0
    · exact List.mem_singleton.mpr h0
    · simp [slNew, h0] at ha

/-- The call has a level that `random_level` can return. -/
def LevelOk : SlOp → Prop
  | .insert _ _ lvl => ∃ coins, lvl = (randomLevel coins).1
  | .delete _ _ => True

/-- A call makes no access it must not make, and leaves nothing behind. -/
theorem Kept.onList_eq {sl : SkipList} {L : List Addr} (hK : Kept sl L) {op : SlOp}
    (hop : LevelOk op) :
    onList sl op = some (op.onList sl) ∧ ∃ L', Kept (op.onList sl).1 L' := by
  cases op with
  | insert member score lvl =>
    obtain ⟨coins, rfl⟩ := hop
    have hlvl := randomLevel_bounds coins
    obtain ⟨hins, hK'⟩ := hK.slInsert_eq member score hlvl.1 hlvl.2
    exact ⟨by rw [onList, hins]; rfl, hK'⟩
  | delete member score => exact hK.slDelete_eq member score

/-- So does a run. -/
theorem Kept.run_eq {sl : SkipList} {L : List Addr} (hK : Kept sl L) {ops : List SlOp}
    (hops : ∀ op ∈ ops, LevelOk op) :
    run sl ops = some (Transducer.run SlOp.onList sl ops) ∧
      ∃ L', Kept (Transducer.run SlOp.onList sl ops).1 L' := by
  induction ops generalizing sl L with
  | nil => exact ⟨rfl, L, hK⟩
  | cons op ops ih =>
    obtain ⟨hop, L', hK'⟩ := hK.onList_eq (hops op List.mem_cons_self)
    obtain ⟨hrest, hK''⟩ := ih hK' fun op' h => hops op' (List.mem_cons_of_mem op h)
    rw [run, hop]
    simp only [Option.bind_eq_bind, Option.bind_some, hrest]
    exact ⟨rfl, hK''⟩

/-- What may be done with a list: read it in any way, and destroy it. -/
structure Safe (sl : SkipList) : Prop where
  score : ∀ member, slGetScore sl member = some (Minired.slGetScore sl member)
  rank : ∀ member, slGetRank sl member = some (Minired.slGetRank sl member)
  range : ∀ start stop max,
    slRangeByRank sl start stop max = some (Minired.slRangeByRank sl start stop max)
  /-- What is allocated is the header and one node for each member counted. -/
  cells : ∃ L, (sl.header :: L).Nodup ∧ L.length = sl.length ∧
    ∀ a, (sl.mem a).isSome ↔ a ∈ sl.header :: L
  /-- The destructor deletes each of them once, and nothing is left. -/
  destroyed : ∃ sl', slDestroy sl = some sl' ∧ ∀ a, sl'.mem a = none

/-- **A list that is kept is safe.** -/
theorem Kept.safe {sl : SkipList} {L : List Addr} (hK : Kept sl L) : Safe sl where
  score := hK.slGetScore_eq
  rank := hK.slGetRank_eq
  range := hK.slRangeByRank_eq
  cells := ⟨L, hK.nodup, hK.length_eq.symm, fun a => ⟨hK.owned a, hK.live a⟩⟩
  destroyed := hK.slDestroy_eq

end SkipListAccess

/-- **The skip list makes no access that it must not make.** In any run of insertions and deletions,
whatever the members and scores and however the levels were drawn, every call has its result: no
node is used after its `delete`, no pointer is read or written above the level of its node, and no
element of `update[]` is used that was not written. The list may then be read and destroyed, and
nothing is leaked. -/
theorem skipList_memory_safe (ops : List SlOp) (hops : ∀ op ∈ ops, SkipListAccess.LevelOk op) :
    SkipListAccess.run slNew ops = some (Transducer.run SlOp.onList slNew ops) ∧
      SkipListAccess.Safe (Transducer.run SlOp.onList slNew ops).1 := by
  obtain ⟨hrun, L, hK⟩ := SkipListAccess.kept_slNew.run_eq hops
  exact ⟨hrun, hK.safe⟩

/-- A member is inserted on every level, and again with a higher score on three: the first search of
the second insertion leaves the address of the deleted node in `update[]` on 31 levels, and two of
them are used. Then it is deleted, by a score that no node has. -/
theorem skipList_memory_safe_reinsert :
    let ops : List SlOp := [.insert (ascii "a") ⟨0⟩ (randomLevel fun _ => true).1,
      .insert (ascii "a") .one (randomLevel fun n => n < 2).1, .delete (ascii "a") ⟨0⟩]
    (∀ op ∈ ops, SkipListAccess.LevelOk op) ∧
      SkipListAccess.run slNew ops = some (Transducer.run SlOp.onList slNew ops) ∧
      SkipListAccess.Safe (Transducer.run SlOp.onList slNew ops).1 := by
  intro ops
  have hops : ∀ op ∈ ops, SkipListAccess.LevelOk op := by
    intro op hop
    simp only [ops, List.mem_cons, List.not_mem_nil, or_false] at hop
    rcases hop with rfl | rfl | rfl
    · exact ⟨_, rfl⟩
    · exact ⟨_, rfl⟩
    · trivial
  exact ⟨hops, skipList_memory_safe ops hops⟩

end Minired
