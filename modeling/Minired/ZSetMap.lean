import Minired.ZSet

/-!
# The sorted set is an ordered map

The abstract sorted set is a partial function from members to scores; its order is by
score, and by bytes among equal scores (`scoreLess`). `ZRel` relates it to the two indexes
while the members added are C strings and the scores are numbers.

`zset_refines_map` says what the four queries answer after any run of such calls: the
score, the size, the rank of a member as the number of smaller ones, and a range of ranks
cut out by two bounds of any sign.
-/

namespace Minired

open Chain KeyedList Transducer

variable {libc : Libc}

/-! ### The queries of an ordered list -/

/-- The loop of `sl_get_rank` finds the first node of the member. -/
theorem slRankLoop_eq {sl : SkipList} (member : Bytes) {x : Addr} {L : List Addr}
    (hL : Linked (slForward sl 0) x L) (hlive : ∀ a ∈ L, (sl.mem a).isSome) {fuel : ℕ}
    (hfuel : L.length < fuel) (rank : Int) :
    slRankLoop sl member fuel rank (slForward sl 0 x) =
      match (L.map (slPair sl)).findIdx? fun c => decide (strcmp c.1 member = 0) with
      | some i => rank + i
      | none => -1 := by
  -- induction on the nodes that are left
  induction L generalizing x fuel rank with
  | nil =>
    obtain ⟨fuel, rfl⟩ : ∃ f, fuel = f + 1 := ⟨fuel - 1, by simp at hfuel; omega⟩
    rw [linked_nil.mp hL]
    rfl
  | cons y L ih =>
    obtain ⟨fuel, rfl⟩ : ∃ f, fuel = f + 1 := ⟨fuel - 1, by simp at hfuel; omega⟩
    rw [hL.1, slRankLoop, addrIs_eq (hlive y List.mem_cons_self), List.map_cons,
      List.findIdx?_cons]
    by_cases hy : strcmp (slPair sl y).1 member = 0
    · simp [hy]
    · -- the rank of the rest is counted from one further
      simp only [hy, decide_false, Bool.false_eq_true, if_false]
      rw [ih hL.2 (fun a ha => hlive a (List.mem_cons_of_mem y ha)) (by simpa using hfuel)]
      cases (L.map (slPair sl)).findIdx? fun c => decide (strcmp c.1 member = 0) with
      | none => rfl
      | some i =>
        simp only [Option.map_some]
        push_cast
        ring

/-- `sl_get_rank`, on the content. -/
theorem slGetRank_holds {sl : SkipList} {C : List (Bytes × Double)} (hC : sl.Holds C)
    (member : Bytes) : slGetRank sl member =
      match C.findIdx? fun c => decide (strcmp c.1 member = 0) with
      | some i => (i : Int)
      | none => -1 := by
  obtain ⟨L, hR, rfl⟩ := hC
  -- more turns than nodes, so the loop ends at the end of the list
  rw [slGetRank, slRankLoop_eq member hR.linked
    (fun a ha => hR.live a (List.mem_cons_of_mem _ ha)) (Nat.lt_succ_of_le hR.fuel)]
  simp only [zero_add]

/-- Skipping nodes drops them. -/
theorem slSkip_linked {sl : SkipList} {x : Addr} {L : List Addr}
    (hL : Linked (slForward sl 0) x L) (k : ℕ) :
    slSkip sl k (slForward sl 0 x) = (L.drop k).head? ∧
      ∀ y ys, L.drop k = y :: ys → Linked (slForward sl 0) y ys := by
  induction k generalizing x L with
  | zero =>
    cases L with
    | nil => exact ⟨linked_nil.mp hL, by simp⟩
    | cons y L =>
      refine ⟨hL.1, ?_⟩
      rintro _ _ ⟨⟩
      exact hL.2
  | succ k ih =>
    cases L with
    | nil =>
      rw [linked_nil.mp hL]
      exact ⟨rfl, by simp⟩
    | cons y L =>
      rw [hL.1, slSkip]
      exact ih hL.2

/-- The copying loop copies the pairs of the nodes it passes. -/
theorem slCopy_linked {sl : SkipList} {L : List Addr} (hlive : ∀ a ∈ L, (sl.mem a).isSome)
    (k : ℕ) {x : Option Addr} (hx : x = L.head?)
    (hL : ∀ y ys, L = y :: ys → Linked (slForward sl 0) y ys) :
    slCopy sl k x = (L.map (slPair sl)).take k := by
  induction k generalizing x L with
  | zero => simp [slCopy]
  | succ k ih =>
    cases L with
    | nil =>
      rw [hx]
      rfl
    | cons y L =>
      obtain ⟨n, hn⟩ := Option.isSome_iff_exists.mp (hlive y List.mem_cons_self)
      have hlinked := hL y L rfl
      -- the bottom chain goes on with the next node of the list
      have hnext : slForward sl 0 y = L.head? := by
        cases L with
        | nil => exact linked_nil.mp hlinked
        | cons z zs => exact hlinked.1
      have hpair : slPair sl y = (n.member, n.score) := by simp [slPair, slData, hn]
      rw [hx, List.head?_cons, slCopy, hn, List.map_cons, List.take_succ_cons, hpair]
      refine congrArg _ (ih (fun a ha => hlive a (List.mem_cons_of_mem y ha)) hnext ?_)
      rintro z zs rfl
      exact hlinked.2

/-- The lower bound of a range: negative bounds count from the end. -/
def rangeLow (n : ℕ) (start : Int) : Int := max 0 (if start < 0 then (n : Int) + start else start)

/-- The upper bound of a range. -/
def rangeHigh (n : ℕ) (stop : Int) : Int :=
  min ((n : Int) - 1) (if stop < 0 then (n : Int) + stop else stop)

/-- **`sl_range_by_rank`**, on the content: the ranks from the lower to the upper bound, and
no more than `max`. -/
theorem slRangeByRank_holds {sl : SkipList} {C : List (Bytes × Double)} (hC : sl.Holds C)
    (start stop max : Int) : slRangeByRank sl start stop max =
      (C.drop (rangeLow C.length start).toNat).take
        (min (rangeHigh C.length stop - rangeLow C.length start + 1).toNat max.toNat) := by
  obtain ⟨L, hR, rfl⟩ := hC
  have hlen : sl.length = (L.map (slPair sl)).length := by rw [List.length_map, hR.length_eq]
  -- clamping in two steps, as the source does, gives the bounds
  obtain ⟨lo, hlo⟩ : ∃ lo, lo = rangeLow sl.length start := ⟨_, rfl⟩
  obtain ⟨hi, hhi⟩ : ∃ hi, hi = rangeHigh sl.length stop := ⟨_, rfl⟩
  have hstart : ∀ s, s = (if start < 0 then (sl.length : Int) + start else start) →
      (if s < 0 then 0 else s) = lo := by
    intro s hs
    rw [hlo, rangeLow, ← hs]
    omega
  have hstop : ∀ s, s = (if stop < 0 then (sl.length : Int) + stop else stop) →
      (if s ≥ (sl.length : Int) then (sl.length : Int) - 1 else s) = hi := by
    intro s hs
    rw [hhi, rangeHigh, ← hs]
    omega
  rw [← hlen, ← hlo, ← hhi, slRangeByRank]
  simp only [hstart _ rfl, hstop _ rfl]
  -- walk to the lower bound, and copy from there
  obtain ⟨hskip, hlinked⟩ := slSkip_linked hR.linked lo.toNat
  rw [slCopy_linked (L := L.drop lo.toNat) (fun a ha =>
    hR.live a (List.mem_cons_of_mem _ (List.mem_of_mem_drop ha))) _ hskip hlinked, List.map_drop]
  by_cases hgt : lo > hi
  · -- the early return, where the count of the formula is zero
    have hzero : (hi - lo + 1).toNat = 0 := by omega
    rw [if_pos hgt, hzero, Nat.zero_min, List.take_zero]
  · rw [if_neg hgt]

/-! ### The order of an abstract set -/

/-- Smaller score, or equal scores and smaller bytes. -/
def scoreLess (a b : Bytes × Double) : Prop :=
  a.2.lt b.2 = true ∨ a.2.eq b.2 = true ∧ a.1 < b.1

/-- How many pairs of the map are smaller. -/
noncomputable def rankIn (M : Bytes → Option Double) (c : Bytes × Double) : ℕ :=
  {d | M d.1 = some d.2 ∧ scoreLess d c}.ncard

/-- The order of texts is that of their bytes as numbers. -/
theorem map_toNat_lt_iff (a b : Bytes) : a.map UInt8.toNat < b.map UInt8.toNat ↔ a < b := by
  induction a generalizing b with
  | nil => cases b <;> simp
  | cons x xs ih =>
    cases b with
    | nil => simp
    | cons y ys =>
      rw [List.map_cons, List.map_cons, List.cons_lt_cons_iff, List.cons_lt_cons_iff, ih,
        UInt8.lt_iff_toNat_lt, UInt8.toNat_inj]

/-- On C strings and numbers, the order is that of the keys of the skip list. -/
theorem scoreLess_iff {a b : Bytes × Double} (ha : NulFree a.1) (hb : NulFree b.1)
    (hna : a.2.isNaN = false) (hnb : b.2.isNaN = false) :
    scoreLess a b ↔ pairKey a < pairKey b := by
  rw [scoreLess, Double.lt_iff hna hnb, Double.eq_iff hna hnb, pairKey, pairKey,
    Prod.Lex.toLex_lt_toLex, cstrKey, cstrKey, ha.cstr_eq, hb.cstr_eq, map_toNat_lt_iff]

section Ordered

variable {C : List (Bytes × Double)} {M : Bytes → Option Double} (ho : Ordered C)
  (hM : Denotes C M)

include ho hM

/-- The rank of a pair is its place in the list. -/
theorem rankIn_eq {C₁ C₂ : List (Bytes × Double)} {c : Bytes × Double}
    (hC : C = C₁ ++ c :: C₂) : rankIn M c = C₁.length := by
  subst hC
  obtain ⟨-, hsorted₂, hcross⟩ := List.pairwise_append.mp ho.sorted
  have hc : c ∈ C₁ ++ c :: C₂ := List.mem_append_right C₁ List.mem_cons_self
  -- the smaller pairs are those in front
  have hset : {d | M d.1 = some d.2 ∧ scoreLess d c} = (C₁.toFinset : Set (Bytes × Double)) := by
    ext d
    rw [Set.mem_ofPred_eq, List.coe_toFinset, Set.mem_ofPred_eq, ← hM d.1 d.2]
    constructor
    · rintro ⟨hd, hless⟩
      rw [scoreLess_iff (ho.nulFree d hd) (ho.nulFree c hc) (ho.number d hd) (ho.number c hc)]
        at hless
      -- neither `c` itself nor what comes behind it is smaller
      rcases List.mem_append.mp hd with h | h
      · exact h
      · rcases List.mem_cons.mp h with rfl | h
        · exact absurd hless (lt_irrefl _)
        · exact absurd hless (List.rel_of_pairwise_cons hsorted₂ h).asymm
    · intro hd
      have hmem : d ∈ C₁ ++ c :: C₂ := List.mem_append_left _ hd
      -- a pair in front is smaller, as the list is sorted
      exact ⟨hmem, (scoreLess_iff (ho.nulFree d hmem) (ho.nulFree c hc) (ho.number d hmem)
        (ho.number c hc)).mpr (hcross d hd c List.mem_cons_self)⟩
  -- no pair is there twice, so the set is as large as the list is long
  have hnd : C₁.Nodup := (List.nodup_append.mp (List.Nodup.of_map _ ho.nodup)).1
  rw [rankIn, hset, Set.ncard_coe_finset, List.toFinset_card_of_nodup hnd]

/-- The rank of the pair at a place is the place. -/
theorem rankIn_getElem {k : ℕ} {c : Bytes × Double} (hk : C[k]? = some c) : rankIn M c = k := by
  obtain ⟨hlt, hget⟩ := List.getElem?_eq_some_iff.mp hk
  have hsplit : C = C.take k ++ c :: C.drop (k + 1) := by
    rw [← hget, List.getElem_cons_drop, List.take_append_drop]
  rw [rankIn_eq ho hM hsplit, List.length_take, min_eq_left hlt.le]

/-- The list has one pair for each member of the map. -/
theorem length_eq_ncard : C.length = {m | M m ≠ none}.ncard := by
  -- the members of the map are those of the pairs
  have hset : {m | M m ≠ none} = ((C.map Prod.fst).toFinset : Set Bytes) := by
    ext m
    rw [Set.mem_ofPred_eq, List.coe_toFinset, Set.mem_ofPred_eq, Option.ne_none_iff_exists',
      List.mem_map]
    constructor
    · rintro ⟨s, hs⟩
      exact ⟨(m, s), (hM m s).mpr hs, rfl⟩
    · rintro ⟨⟨_, s⟩, hs, rfl⟩
      exact ⟨s, (hM _ s).mp hs⟩
  rw [hset, Set.ncard_coe_finset, List.toFinset_card_of_nodup ho.nodup, List.length_map]

/-- The scan for a member ends at its rank. -/
theorem findIdx_eq_rankIn {member : Bytes} (hm : NulFree member) :
    (match C.findIdx? fun c => decide (strcmp c.1 member = 0) with
      | some i => (i : Int)
      | none => -1) =
    match M member with
      | some s => (rankIn M (member, s) : Int)
      | none => -1 := by
  have hzero : ∀ c ∈ C, (strcmp c.1 member = 0 ↔ c.1 = member) := fun c hc =>
    strcmp_eq_zero_of_nulFree (ho.nulFree c hc) hm
  cases hMm : M member with
  | none =>
    -- no pair has the member
    have hnone : (C.findIdx? fun c => decide (strcmp c.1 member = 0)) = none := by
      rw [List.findIdx?_eq_none_iff]
      intro c hc
      rw [decide_eq_false_iff_not, hzero c hc]
      exact hM.absent hMm c hc
    rw [hnone]
  | some s =>
    obtain ⟨C₁, C₂, hC⟩ := List.append_of_mem ((hM _ _).mpr hMm)
    -- another pair of the member would be a second one
    have hnone : (C₁.findIdx? fun c => decide (strcmp c.1 member = 0)) = none := by
      rw [List.findIdx?_eq_none_iff]
      intro c hc
      have hmem : c ∈ C := hC ▸ List.mem_append_left _ hc
      rw [decide_eq_false_iff_not, hzero c hmem]
      intro heq
      have hnd := ho.nodup
      rw [NodupKeys, hC, List.map_append, List.map_cons, List.nodup_append] at hnd
      exact hnd.2.2 c.1 (List.mem_map_of_mem hc) member List.mem_cons_self heq
    have hself : strcmp member member = 0 := (strcmp_eq_zero_iff _ _).mpr rfl
    have hrank := rankIn_eq ho hM hC
    rw [hC, List.findIdx?_append, hnone, List.findIdx?_cons]
    simp [hself, hrank]

end Ordered

/-! ### The two indexes represent the map -/

/-- The call on a partial function. -/
def ZSetOp.onMap (M : Bytes → Option Double) : ZSetOp → (Bytes → Option Double) × Bool
  | .add member score => (Function.update M member (some score), true)
  | .rem member => (Function.update M member none, (M member).isSome)

/-- Members to add are C strings and scores are numbers. -/
def ZSetOp.Plain : ZSetOp → Prop
  | .add member score => NulFree member ∧ score.isNaN = false
  | .rem _ => True

variable (libc) in
/-- The skip list represents the map, and the table has its scores as text. -/
structure ZRel (z : ZSet) (M : Bytes → Option Double) : Prop where
  sl : SlRel z.sl M
  wf : z.ht.WF
  get : dictGet z.ht = fun m => (M m).map libc.printG17

/-- The new sorted set is the empty map. -/
theorem ZRel.fresh : ZRel libc zsetNew fun _ => none :=
  ⟨SlRel.fresh, wf_dictNew, dictGet_dictNew⟩

/-- What is represented are numbers, on C strings. -/
theorem ZRel.plain {z : ZSet} {M : Bytes → Option Double} (h : ZRel libc z M) {m : Bytes}
    {s : Double} (hm : M m = some s) : NulFree m ∧ s.isNaN = false := by
  obtain ⟨C, -, ho, hM⟩ := h.sl
  exact ⟨ho.nulFree _ ((hM m s).mpr hm), ho.number _ ((hM m s).mpr hm)⟩

/-- **`zset_score`** reads the map off the table. -/
theorem ZRel.score_eq {z : ZSet} {M : Bytes → Option Double} (h : ZRel libc z M)
    (hlibc : libc.Exact) (m : Bytes) : htGetScore libc z.ht m = M m := by
  rw [htGetScore, h.get]
  cases hm : M m with
  | none => simp [hm]
  | some s => simp [hm, hlibc.number s (h.plain hm).2]

/-- Deleting a represented member with its stored score clears it. -/
theorem SlRel.delete {sl : SkipList} {M : Bytes → Option Double} (h : SlRel sl M) {m : Bytes}
    {s : Double} (hm : M m = some s) :
    SlRel (slDelete sl m s).1 (Function.update M m none) ∧ (slDelete sl m s).2 = true := by
  obtain ⟨C, hC, ho, hM⟩ := h
  have hmem := (hM m s).mpr hm
  have hnum := ho.number _ hmem
  obtain ⟨hfound, hC'⟩ := slDelete_ordered hC ho hmem ((Double.eq_iff hnum hnum).mpr rfl)
  exact ⟨⟨_, hC', ho.without m, hM.without m⟩, hfound⟩

/-- One call keeps the representation and gives the same answer on both sides. -/
theorem ZRel.step (hlibc : libc.Exact) (op : ZSetOp) (hop : op.Plain) {s : ZSet × Coins}
    {M : Bytes → Option Double} (h : ZRel libc s.1 M) :
    ZRel libc (op.onZSet libc s).1.1 (op.onMap M).1 ∧
      (op.onZSet libc s).2 = (op.onMap M).2 := by
  obtain ⟨z, coins⟩ := s
  cases op with
  | add member score =>
    obtain ⟨hm, hs⟩ := hop
    refine ⟨⟨?_, wf_dictSet h.wf member _, ?_⟩, rfl⟩
    · -- the old node goes first, if there is one, and the new one is inserted
      show SlRel (slInsert _ member score (randomLevel coins).1) _
      rw [h.score_eq hlibc]
      have hlvl := randomLevel_bounds coins
      cases hMm : M member with
      | none => exact (h.sl.step (.insert member score _) ⟨hm, hs, hlvl⟩).1
      | some old =>
        have hins := ((h.sl.delete hMm).1.step (.insert member score _) ⟨hm, hs, hlvl⟩).1
        simp only [SlOp.onMap, Function.update_idem] at hins
        exact hins
    · show dictGet (dictSet z.ht member _) = _
      rw [dictGet_dictSet h.wf, h.get]
      exact (Function.comp_update (Option.map libc.printG17) M member (some score)).symm
  | rem member =>
    have hget := h.score_eq hlibc member
    cases hMm : M member with
    | none =>
      -- the table does not know the member, and the call returns early
      rw [hMm] at hget
      have hsame : zsetRem libc z member = (z, false) := by
        rw [zsetRem, hget]
      have hupd : Function.update M member none = M := by rw [← hMm, Function.update_eq_self]
      simp only [ZSetOp.onZSet, ZSetOp.onMap, hsame, hupd, hMm]
      exact ⟨h, rfl⟩
    | some s =>
      -- the score read off the table is the one in the list, so both indexes lose the member
      rw [hMm] at hget
      have hrem : zsetRem libc z member =
          (⟨(slDelete z.sl member s).1, (dictDel z.ht member).1⟩, true) := by
        rw [zsetRem, hget]
      simp only [ZSetOp.onZSet, ZSetOp.onMap, hrem, hMm, Option.isSome_some, and_true]
      refine ⟨(h.sl.delete hMm).1, wf_dictDel h.wf member, ?_⟩
      rw [dictGet_dictDel h.wf, h.get]
      exact (Function.comp_update (Option.map libc.printG17) M member none).symm

/-- A represented map, at the end of a run of plain calls. -/
theorem zrel_run (hlibc : libc.Exact) {ops : List ZSetOp} (hops : ∀ op ∈ ops, op.Plain)
    (coins : Coins) :
    ZRel libc (run (ZSetOp.onZSet libc) (zsetNew, coins) ops).1.1
        (run ZSetOp.onMap (fun _ => none) ops).1 ∧
      (run (ZSetOp.onZSet libc) (zsetNew, coins) ops).2 =
        (run ZSetOp.onMap (fun _ => none) ops).2 := by
  have hok : RunOk ZSetOp.onMap (fun _ op => op.Plain) (fun _ => none) ops :=
    runOk_of_invariant (P := fun _ => True) (fun op hop _ _ => ⟨hops op hop, trivial⟩) trivial
  exact run_simulation_of_ok (R := fun (s : ZSet × Coins) M => ZRel libc s.1 M)
    (fun op _ _ h hop => h.step hlibc op hop) ZRel.fresh hok

/-- **The sorted set is an ordered map.** After any run of calls with C string members and
number scores, whatever coins the insertions flip: `zset_score` is the map, `zset_card` its
size, `zset_rank` the number of smaller members, and `zset_range` the first `max` ranks
between the bounds, in order, with their scores. -/
theorem zset_refines_map (hlibc : libc.Exact) {ops : List ZSetOp}
    (hops : ∀ op ∈ ops, op.Plain) (coins : Coins) :
    let z := (run (ZSetOp.onZSet libc) (zsetNew, coins) ops).1.1
    let M := (run ZSetOp.onMap (fun _ => none) ops).1
    let n := {m | M m ≠ none}.ncard
    (∀ m, zsetScore libc z m = M m) ∧ zsetCard z = n ∧
      (∀ m, NulFree m → zsetRank z m =
        match M m with
        | some s => (rankIn M (m, s) : Int)
        | none => -1) ∧
      ∀ start stop max : Int,
        ((zsetRange z start stop max).length : Int) =
            Max.max 0 (min (rangeHigh n stop - rangeLow n start + 1) max) ∧
          ∀ (i : ℕ) (m : Bytes) (s : Double), (zsetRange z start stop max)[i]? = some (m, s) →
            zsetScore libc z m = some s ∧ (rankIn M (m, s) : Int) = rangeLow n start + i ∧
            zsetRank z m = rangeLow n start + i := by
  intro z M n
  have hrel : ZRel libc z M := (zrel_run hlibc hops coins).1
  -- the content of the skip list, which all the queries read
  obtain ⟨C, hC, ho, hM⟩ : ∃ C, z.sl.Holds C ∧ Ordered C ∧ Denotes C M := hrel.sl
  have hn : C.length = n := length_eq_ncard ho hM
  have hrank : ∀ m, NulFree m → zsetRank z m =
      match M m with
      | some s => (rankIn M (m, s) : Int)
      | none => -1 := fun m hm => (slGetRank_holds hC m).trans (findIdx_eq_rankIn ho hM hm)
  refine ⟨hrel.score_eq hlibc, ?_, hrank, fun start stop max => ?_⟩
  · obtain ⟨L, hR, hL⟩ := hC
    show z.sl.length = n
    rw [hR.length_eq, ← hn, ← hL, List.length_map]
  · have hrange : zsetRange z start stop max = _ := slRangeByRank_holds hC start stop max
    rw [hn] at hrange
    have hlow : 0 ≤ rangeLow n start := le_max_left _ _
    have hhigh : rangeHigh n stop ≤ n - 1 := min_le_left _ _
    rw [hrange]
    refine ⟨?_, fun i m s hi => ?_⟩
    · rw [List.length_take, List.length_drop, hn]
      omega
    · rw [List.getElem?_take, List.getElem?_drop] at hi
      split at hi
      · -- what is read at `i` is the pair of rank `start + i`
        have hmem : (m, s) ∈ C := List.mem_of_getElem? hi
        have hMm := (hM m s).mp hmem
        have hplace : (rankIn M (m, s) : Int) = rangeLow n start + i := by
          rw [rankIn_getElem ho hM hi]
          omega
        refine ⟨(hrel.score_eq hlibc m).trans hMm, hplace, ?_⟩
        have hrankm := hrank m (ho.nulFree _ hmem)
        simp only [hMm] at hrankm
        exact hrankm.trans hplace
      · exact absurd hi (by simp)

/-- Two members, one of which is moved to another score. -/
theorem zset_refines_map_moved :
    let ops : List ZSetOp := [.add (ascii "a") .one, .add (ascii "b") .one, .add (ascii "a") ⟨0⟩]
    let z := (run (ZSetOp.onZSet Libc.plain) (zsetNew, fun _ => false) ops).1.1
    let M := (run ZSetOp.onMap (fun _ => none) ops).1
    zsetScore Libc.plain z (ascii "a") = some ⟨0⟩ ∧
      zsetRank z (ascii "b") = (rankIn M (ascii "b", .one) : Int) := by
  intro ops z M
  have hone : NulFree (ascii "a") ∧ NulFree (ascii "b") ∧ Double.one.isNaN = false ∧
      Double.isNaN ⟨0⟩ = false := by decide
  have hops : ∀ op ∈ ops, op.Plain := by
    intro op hop
    simp only [ops, List.mem_cons, List.not_mem_nil, or_false] at hop
    rcases hop with rfl | rfl | rfl
    · exact ⟨hone.1, hone.2.2.1⟩
    · exact ⟨hone.2.1, hone.2.2.1⟩
    · exact ⟨hone.1, hone.2.2.2⟩
  obtain ⟨hscore, -, hrank, -⟩ :=
    zset_refines_map Libc.plain_exact hops fun _ => false
  have hne : ascii "b" ≠ ascii "a" := by decide
  -- the other member keeps its score
  have hb : M (ascii "b") = some .one := by simp [M, ops, ZSetOp.onMap, hne]
  have hrankb : zsetRank z (ascii "b") =
      match M (ascii "b") with
      | some s => (rankIn M (ascii "b", s) : Int)
      | none => -1 := hrank (ascii "b") hone.2.1
  rw [hb] at hrankb
  refine ⟨(hscore _).trans ?_, hrankb⟩
  simp [ops, ZSetOp.onMap]

end Minired
