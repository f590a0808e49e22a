import Minired.ZSetMap

/-!
# When the two indexes agree

`zset_agree_iff` is exact: the skip list and the table agree throughout a run if and only
if every call meets `ZSetOp.Finds`. A call that does not leaves a member in one index
only, or twice in the skip list:

* a member with a NUL byte is another member in the skip list, its C string;
* a NaN compares false with everything, so a search can stop before it reaches the node,
  and `sl_delete` fails without anyone noticing.

`ZSetInv` is the invariant behind it. It has no order, since a NaN among the scores has no
place in one.
-/

namespace Minired

open Chain KeyedList Transducer

variable {libc : Libc}

/-! ### Updates that find what they look for -/

/-- The nodes, read as C strings. -/
theorem SkipList.Holds.reads {sl : SkipList} {C : List (Bytes × Double)} (hC : sl.Holds C) :
    sl.Reads (C.map fun c => (cstr c.1, c.2)) := by
  obtain ⟨L, hR, rfl⟩ := hC
  refine ⟨L, hR.linked, fun a ha => hR.live a (List.mem_cons_of_mem _ ha), ?_⟩
  rw [List.map_map]
  rfl

/-- What is read off a chain are C strings. -/
theorem SkipList.Reads.nulFree {sl : SkipList} {C : List (Bytes × Double)} (h : sl.Reads C) :
    ∀ c ∈ C, NulFree c.1 := by
  obtain ⟨L, -, -, rfl⟩ := h
  intro c hc
  obtain ⟨a, -, rfl⟩ := List.mem_map.mp hc
  exact nulFree_cstr _

/-- A chain of C strings is read as it is. -/
theorem SkipList.Holds.reads_of_nulFree {sl : SkipList} {C : List (Bytes × Double)}
    (hC : sl.Holds C) (hnul : ∀ c ∈ C, NulFree c.1) : sl.Reads C := by
  have hmap : (C.map fun c => (cstr c.1, c.2)) = C.map id :=
    List.map_congr_left fun c hc => by rw [(hnul c hc).cstr_eq, id]
  have hreads := hC.reads
  rwa [hmap, List.map_id] at hreads

/-- The chain reads as one list only. -/
theorem SkipList.Reads.unique {sl : SkipList} {C C' : List (Bytes × Double)} (h : sl.Reads C)
    (h' : sl.Reads C') : C = C' := by
  obtain ⟨L, hL, -, rfl⟩ := h
  obtain ⟨L', hL', -, rfl⟩ := h'
  rw [hL.unique hL']

/-- `sl_delete` deletes exactly when its search stops in front of the member. -/
theorem slDelete_snd {sl : SkipList} {member : Bytes} {score : Double} :
    (slDelete sl member score).2 = true ↔ StopsAt sl member score := by
  rw [slDelete, StopsAt]
  cases slForward sl 0 (slSearch sl member score (fun _ => 0) 0) with
  | none => simp
  | some x =>
    by_cases hx : addrIs sl member x = true
    · simp [hx]
    · simp [hx]

/-- A `sl_delete` whose search stops elsewhere does nothing. -/
theorem slDelete_of_not_stopsAt {sl : SkipList} {member : Bytes} {score : Double}
    (h : ¬StopsAt sl member score) : (slDelete sl member score).1 = sl := by
  rw [← slDelete_snd] at h
  rw [slDelete] at h ⊢
  cases hf : slForward sl 0 (slSearch sl member score (fun _ => 0) 0) with
  | none => rfl
  | some x =>
    rw [hf] at h
    by_cases hx : addrIs sl member x = true
    · exact absurd (by simp [hx]) h
    · simp [hx]

/-- Any two NaNs search alike. -/
theorem stopsAt_congr {sl : SkipList} {member : Bytes} {s t : Double} (h : SameScore s t) :
    StopsAt sl member s ↔ StopsAt sl member t := by
  rcases h with rfl | ⟨hs, ht⟩
  · rfl
  · -- no comparison with a NaN holds, so the search never moves
    have hbefore : ∀ u : Double, u.isNaN = true → addrBefore sl member u = fun _ => false := by
      intro u hu
      funext a
      cases hn : sl.mem a <;> simp [addrBefore, hn, nodeBefore, Double.lt, Double.eq, hu]
    rw [StopsAt, StopsAt, slSearch, slSearch, hbefore s hs, hbefore t ht]

section Holds

variable {sl : SkipList} {C : List (Bytes × Double)} (hC : sl.Holds C)
  (hnul : ∀ c ∈ C, NulFree c.1) {member : Bytes} (hm : NulFree member)

include hC hnul hm

/-- A deletion that finds the member removes it. -/
theorem slDelete_of_stopsAt (hnd : NodupKeys Prod.fst C) {score : Double}
    (h : StopsAt sl member score) :
    (slDelete sl member score).1.Holds (without Prod.fst member C) := by
  obtain ⟨C₁, C₂, rfl, -, ⟨-, hsame⟩ | ⟨c, C₃, rfl, hzero, -, hholds⟩⟩ :=
    slDelete_holds hC member score
  · rw [← slDelete_snd, hsame] at h
    exact absurd h Bool.false_ne_true
  · have hmem : c ∈ C₁ ++ c :: C₃ := List.mem_append_right C₁ List.mem_cons_self
    obtain rfl := (strcmp_eq_zero_of_nulFree (hnul c hmem) hm).mp hzero
    rw [hnd.without_middle]
    exact hholds

/-- An insertion of an absent member adds it. -/
theorem slInsert_of_absent (habsent : ∀ c ∈ C, c.1 ≠ member) (score : Double) {lvl : ℕ}
    (hlvl : 0 < lvl) :
    ∃ C', (slInsert sl member score lvl).Holds C' ∧ C'.Perm ((member, score) :: C) := by
  have hnone : lookup Prod.fst member C = none := lookup_eq_none.mpr habsent
  obtain ⟨C₁, C₂, rfl, -, hholds⟩ := slInsert_holds hC member score hlvl C (by
    rw [find_strcmp hnul hm, hnone])
  exact ⟨_, hholds, List.perm_middle⟩

/-- An insertion whose own deletion fails adds the member a second time. -/
theorem slInsert_of_not_stopsAt (hnd : NodupKeys Prod.fst C) {s : Double}
    (hmem : (member, s) ∈ C) (hs : ¬StopsAt sl member s) (score : Double) {lvl : ℕ}
    (hlvl : 0 < lvl) :
    ∃ C', (slInsert sl member score lvl).Holds C' ∧ C'.Perm ((member, score) :: C) := by
  have hsome : lookup Prod.fst member C = some (member, s) :=
    hnd.lookup_eq_some_iff.mpr ⟨hmem, rfl⟩
  obtain ⟨C₁, C₂, rfl, -, hholds⟩ := slInsert_holds hC member score hlvl C (by
    rw [find_strcmp hnul hm, hsome]
    show (slDelete sl member s).1.Holds C
    rw [slDelete_of_not_stopsAt hs]
    exact hC)
  exact ⟨_, hholds, List.perm_middle⟩

end Holds

/-! ### The invariant -/

variable (libc) in
/-- The skip list holds the pairs of a map, on C strings, and the table has their scores as
text. -/
structure ZSetInv (z : ZSet) (M : Bytes → Option Double) (C : List (Bytes × Double)) : Prop where
  holds : z.sl.Holds C
  nulFree : ∀ c ∈ C, NulFree c.1
  nodup : NodupKeys Prod.fst C
  denotes : Denotes C M
  wf : z.ht.WF
  get : dictGet z.ht = fun m => (M m).map libc.printG17

/-- What the table has is what the map has, read back. -/
theorem htGetScore_eq {ht : Dict Bytes} {M : Bytes → Option Double}
    (h : dictGet ht = fun m => (M m).map libc.printG17) (m : Bytes) :
    htGetScore libc ht m = (M m).map fun s => libc.strtod (libc.printG17 s) := by
  rw [htGetScore, h]
  exact Option.map_map ..

/-- Printing and reading back keeps the score. -/
theorem Libc.Exact.sameScore (h : libc.Exact) (s : Double) :
    SameScore s (libc.strtod (libc.printG17 s)) := by
  cases hs : s.isNaN with
  | false => exact Or.inl (h.number s hs).symm
  | true => exact Or.inr ⟨hs, h.nan s hs⟩

namespace ZSetInv

variable {z : ZSet} {M : Bytes → Option Double} {C : List (Bytes × Double)}

/-- The pairs of C string members read as they are. -/
theorem reads (h : ZSetInv libc z M C) : z.sl.Reads C := h.holds.reads_of_nulFree h.nulFree

/-- The table has one entry for each pair. -/
theorem count_eq (h : ZSetInv libc z M C) : z.ht.count = C.length := by
  -- both have the members of the map as their keys, each once
  have hperm : (z.ht.entries.map DictEntry.key).Perm (C.map Prod.fst) := by
    refine (List.perm_ext_iff_of_nodup h.wf.nodup h.nodup).mpr fun m => ?_
    have hkey : m ∈ z.ht.entries.map DictEntry.key ↔ dictGet z.ht m ≠ none := by
      rw [Ne, dictGet_eq_none_iff h.wf, List.mem_map]
      push Not
      rfl
    rw [hkey, h.get, Ne, Option.map_eq_none_iff, ← Ne, Option.ne_none_iff_exists', List.mem_map]
    constructor
    · rintro ⟨s, hs⟩
      exact ⟨(m, s), (h.denotes m s).mpr hs, rfl⟩
    · rintro ⟨⟨_, s⟩, hs, rfl⟩
      exact ⟨s, (h.denotes _ s).mp hs⟩
  rw [h.wf.count_eq]
  simpa using hperm.length_eq

/-- The invariant implies the agreement. -/
theorem agree (hlibc : libc.Exact) (h : ZSetInv libc z M C) : z.Agree libc := by
  obtain ⟨L, hR, hL⟩ := h.holds
  have hlen : z.sl.length = C.length := by rw [hR.length_eq, ← hL, List.length_map]
  -- the text in the table reads back as the score in the list
  refine ⟨⟨C, h.reads, h.nodup, hlen, fun m s hms => ?_, fun m t hmt => ?_⟩,
    hlen.trans h.count_eq.symm⟩
  · refine ⟨_, ?_, hlibc.sameScore s⟩
    rw [htGetScore_eq h.get, (h.denotes m s).mp hms]
    rfl
  · rw [htGetScore_eq h.get, Option.map_eq_some_iff] at hmt
    obtain ⟨s, hs, rfl⟩ := hmt
    exact ⟨s, (h.denotes m s).mpr hs, hlibc.sameScore s⟩

/-- A member the table has is a C string. -/
theorem nulFree_of_get (h : ZSetInv libc z M C) {m : Bytes} {s : Double} (hs : M m = some s) :
    NulFree m := h.nulFree _ ((h.denotes m s).mpr hs)

/-- The pairs of one member less and the map without it. -/
theorem erase (h : ZSetInv libc z M C) (m : Bytes) {sl : SkipList}
    (hsl : sl.Holds (without Prod.fst m C)) :
    ZSetInv libc ⟨sl, (dictDel z.ht m).1⟩ (Function.update M m none) (without Prod.fst m C) where
  holds := hsl
  nulFree := fun c hc => h.nulFree c (mem_without.mp hc).1
  nodup := h.nodup.without m
  denotes := h.denotes.without m
  wf := wf_dictDel h.wf m
  get := by
    show dictGet (dictDel z.ht m).1 = _
    rw [dictGet_dictDel h.wf, h.get]
    exact (Function.comp_update (Option.map libc.printG17) M m none).symm

/-- The node that an addition or a removal has to take out, if its search finds it. -/
theorem delete_found (h : ZSetInv libc z M C) {m : Bytes} {s : Double}
    (hs : M m = some s)
    (hstop : ∀ t, htGetScore libc z.ht m = some t → StopsAt z.sl m t) :
    (slDelete z.sl m (libc.strtod (libc.printG17 s))).1.Holds (without Prod.fst m C) := by
  refine slDelete_of_stopsAt h.holds h.nulFree (h.nulFree_of_get hs) h.nodup (hstop _ ?_)
  rw [htGetScore_eq h.get, hs]
  rfl

/-- A call that does not find the member it looks for: the map has it, and the search for it
stops elsewhere. -/
theorem missed (h : ZSetInv libc z M C) {m : Bytes}
    (hnot : ¬∀ t, htGetScore libc z.ht m = some t → StopsAt z.sl m t) :
    ∃ s, M m = some s ∧ htGetScore libc z.ht m = some (libc.strtod (libc.printG17 s)) ∧
      ¬StopsAt z.sl m (libc.strtod (libc.printG17 s)) := by
  obtain ⟨t, hnot⟩ := not_forall.mp hnot
  obtain ⟨ht, hstop⟩ := Classical.not_imp.mp hnot
  have hs := ht
  rw [htGetScore_eq h.get, Option.map_eq_some_iff] at hs
  obtain ⟨s, hs, rfl⟩ := hs
  exact ⟨s, hs, ht, hstop⟩

end ZSetInv

/-! ### One call -/

section Step

variable {z : ZSet} {M : Bytes → Option Double} {C : List (Bytes × Double)}
  (h : ZSetInv libc z M C)

include h

/-- An addition that meets the condition keeps the invariant. -/
theorem ZSetInv.add {member : Bytes} (score : Double) (coins : Coins)
    (hok : (ZSetOp.add member score).Finds libc (z, coins)) :
    ∃ C', ZSetInv libc (zsetAdd libc z member score coins).1
      (Function.update M member (some score)) C' := by
  obtain ⟨hm, hstop⟩ := hok
  have hlvl := (randomLevel_bounds coins).1
  -- the table gets the new score
  have hget : dictGet (htSetScore libc z.ht member score) =
      fun m => (Function.update M member (some score) m).map libc.printG17 := by
    rw [htSetScore, dictGet_dictSet h.wf, h.get]
    exact (Function.comp_update (Option.map libc.printG17) M member (some score)).symm
  -- after the deletion, or without one, the member is absent from the skip list
  obtain ⟨sl, hsl, hdel⟩ : ∃ sl : SkipList,
      (zsetAdd libc z member score coins).1.sl = slInsert sl member score (randomLevel coins).1 ∧
        sl.Holds (without Prod.fst member C) := by
    cases hMm : M member with
    | none =>
      -- nothing is deleted, and nothing had to be
      have habsent : htGetScore libc z.ht member = none := by rw [htGetScore_eq h.get, hMm]; rfl
      refine ⟨z.sl, zsetAdd_of_absent libc habsent score coins, ?_⟩
      rw [without_of_forall_ne (h.denotes.absent hMm)]
      exact h.holds
    | some s =>
      -- the deletion by the score of the table finds the node
      have hpresent := (htGetScore_eq h.get member).trans (congrArg (Option.map _) hMm)
      exact ⟨_, zsetAdd_of_present libc hpresent score coins, h.delete_found hMm hstop⟩
  -- the insertion puts the pair in order
  obtain ⟨C', hC', hperm⟩ := slInsert_of_absent hdel
    (fun c hc => h.nulFree c (mem_without.mp hc).1) hm (fun c hc => (mem_without.mp hc).2) score
    hlvl
  rw [← hsl] at hC'
  refine ⟨C', hC', fun c hc => ?_, ?_, h.denotes.set hperm, wf_dictSet h.wf _ _, hget⟩
  · rcases List.mem_cons.mp (hperm.subset hc) with rfl | hc
    · exact hm
    · exact h.nulFree c (mem_without.mp hc).1
  · refine NodupKeys.perm (NodupKeys.cons (h.nodup.without member) fun c hc => ?_) hperm.symm
    exact (mem_without.mp hc).2

/-- A removal that meets the condition keeps the invariant. -/
theorem ZSetInv.rem {member : Bytes} (coins : Coins)
    (hok : (ZSetOp.rem member).Finds libc (z, coins)) :
    ∃ M' C', ZSetInv libc (zsetRem libc z member).1 M' C' := by
  rw [zsetRem, htGetScore_eq h.get]
  cases hMm : M member with
  | none => exact ⟨M, C, h⟩
  | some s => exact ⟨_, _, h.erase member (h.delete_found hMm hok)⟩

/-- An addition that does not meet the condition breaks the agreement. -/
theorem ZSetInv.add_breaks (hlibc : libc.Exact) {member : Bytes} (score : Double) (coins : Coins)
    (hok : ¬(ZSetOp.add member score).Finds libc (z, coins)) :
    ¬(zsetAdd libc z member score coins).1.Agree libc := by
  rintro ⟨⟨C', hreads, hnd, -, -, hback⟩, -⟩
  by_cases hm : NulFree member
  · -- the node is not found, neither by the addition nor by the insertion
    obtain ⟨s, hs, ht, hnot⟩ := h.missed fun hall => hok ⟨hm, hall⟩
    have hmem := (h.denotes member s).mpr hs
    obtain ⟨C₁, hC₁, hperm⟩ := slInsert_of_not_stopsAt h.holds h.nulFree hm h.nodup hmem
      (by rwa [stopsAt_congr (hlibc.sameScore s)]) score (randomLevel_bounds coins).1
    have hsl : (zsetAdd libc z member score coins).1.sl =
        slInsert z.sl member score (randomLevel coins).1 := by
      rw [zsetAdd_of_present libc ht, slDelete_of_not_stopsAt hnot]
    -- what can be read has a node for the member twice
    rw [hsl] at hreads
    obtain rfl := hC₁.reads.unique hreads
    -- so the member is there twice
    have hkeys : ((C₁.map fun c => (cstr c.1, c.2)).map Prod.fst).Perm
        (member :: C.map fun c => cstr c.1) := by
      have hmap := hperm.map fun c => cstr c.1
      rw [List.map_cons, hm.cstr_eq] at hmap
      rwa [List.map_map]
    have htwice := hkeys.nodup_iff.mp hnd
    refine (List.nodup_cons.mp htwice).1 (List.mem_map.mpr ⟨_, hmem, hm.cstr_eq⟩)
  · -- the table has a member that is no C string
    have hnew : htGetScore libc (zsetAdd libc z member score coins).1.ht member =
        some (libc.strtod (libc.printG17 score)) := by
      show (dictGet (dictSet z.ht member _) member).map libc.strtod = _
      rw [dictGet_dictSet h.wf, Function.update_self]
      rfl
    obtain ⟨s, hmem, -⟩ := hback member _ hnew
    obtain ⟨L, -, -, rfl⟩ := hreads
    obtain ⟨a, -, ha⟩ := List.mem_map.mp hmem
    exact hm ((Prod.mk.inj ha).1 ▸ nulFree_cstr _)

/-- A removal that does not meet the condition breaks the agreement. -/
theorem ZSetInv.rem_breaks {member : Bytes} (coins : Coins)
    (hok : ¬(ZSetOp.rem member).Finds libc (z, coins)) :
    ¬(zsetRem libc z member).1.Agree libc := by
  obtain ⟨s, hs, ht, hnot⟩ := h.missed hok
  -- the skip list stays as it is, and the entry of the table goes
  have hrem : (zsetRem libc z member).1 = ⟨z.sl, (dictDel z.ht member).1⟩ := by
    rw [zsetRem, ht]
    show (⟨(slDelete z.sl member _).1, _⟩ : ZSet) = _
    rw [slDelete_of_not_stopsAt hnot]
  rw [hrem]
  rintro ⟨⟨C', hreads, -, -, hforth, -⟩, -⟩
  -- the skip list still has the member, the table has not
  obtain rfl := h.reads.unique hreads
  obtain ⟨t', ht', -⟩ := hforth member s ((h.denotes member s).mpr hs)
  have hgone : htGetScore libc (dictDel z.ht member).1 member = none := by
    rw [htGetScore, dictGet_dictDel h.wf, Function.update_self]
    rfl
  rw [hgone] at ht'
  exact absurd ht' (Option.some_ne_none t').symm

end Step

/-! ### Whole runs -/

/-- A represented map is an instance of the invariant. -/
theorem ZRel.inv {z : ZSet} {M : Bytes → Option Double} (h : ZRel libc z M) :
    ∃ C, ZSetInv libc z M C := by
  obtain ⟨C, hC, ho, hM⟩ := h.sl
  exact ⟨C, hC, ho.nulFree, ho.nodup, hM, h.wf, h.get⟩

/-- A plain call on a represented map meets the condition. -/
theorem ZRel.finds (hlibc : libc.Exact) {s : ZSet × Coins} {M : Bytes → Option Double}
    (h : ZRel libc s.1 M) {op : ZSetOp} (hop : op.Plain) : op.Finds libc s := by
  have hstop : ∀ m t, htGetScore libc s.1.ht m = some t → StopsAt s.1.sl m t := by
    intro m t ht
    rw [h.score_eq hlibc] at ht
    exact slDelete_snd.mp (h.sl.delete ht).2
  cases op with
  | add member score => exact ⟨hop.1, hstop member⟩
  | rem member => exact hstop member

/-- **When the two indexes agree.** Throughout a run from the empty sorted set the two
indexes agree, if and only if every call of the run meets `ZSetOp.Finds`. Runs that add C
strings with number scores do. -/
theorem zset_agree_iff (hlibc : libc.Exact) (coins : Coins) (ops : List ZSetOp) :
    ((∀ pre, pre <+: ops →
        (run (ZSetOp.onZSet libc) (zsetNew, coins) pre).1.1.Agree libc) ↔
      RunOk (ZSetOp.onZSet libc) (fun s op => op.Finds libc s) (zsetNew, coins) ops) ∧
      ((∀ op ∈ ops, op.Plain) →
        RunOk (ZSetOp.onZSet libc) (fun s op => op.Finds libc s) (zsetNew, coins) ops) := by
  constructor
  · refine forall_prefix_iff (I := fun s : ZSet × Coins => ∃ M C, ZSetInv libc s.1 M C)
      (P := fun s : ZSet × Coins => s.1.Agree libc) ?_ ?_ ?_ ?_ ops
    · -- the invariant implies the agreement
      rintro s ⟨M, C, h⟩
      exact h.agree hlibc
    · -- a call that finds what it looks for keeps the invariant
      rintro ⟨z, coins⟩ op ⟨M, C, h⟩ hok
      cases op with
      | add member score =>
        obtain ⟨C', h'⟩ := h.add score coins hok
        exact ⟨_, C', h'⟩
      | rem member => exact h.rem coins hok
    · -- and a call that does not breaks the agreement
      rintro ⟨z, coins⟩ op ⟨M, C, h⟩ hok
      cases op with
      | add member score => exact h.add_breaks hlibc score coins hok
      | rem member => exact h.rem_breaks coins hok
    · exact ⟨_, ZRel.fresh.inv⟩
  · intro hops
    refine runOk_of_invariant (P := fun s : ZSet × Coins => ∃ M, ZRel libc s.1 M) ?_
      ⟨_, ZRel.fresh⟩
    rintro op hop s ⟨M, h⟩
    exact ⟨h.finds hlibc (hops op hop), _, (h.step hlibc op (hops op hop)).1⟩

/-- Two members with one C string: the skip list has one node, the table two entries. -/
theorem zset_disagree_nul :
    let ops : List ZSetOp := [.add [97, 0, 98] .one, .add [97, 0, 99] .one]
    let z := (run (ZSetOp.onZSet Libc.plain) (zsetNew, fun _ => false) ops).1.1
    z.sl.length = 1 ∧ z.ht.count = 2 ∧ ¬z.Agree Libc.plain := by
  intro ops z
  have hsl : z.sl.length = 1 := by decide
  have hht : z.ht.count = 2 := by decide
  refine ⟨hsl, hht, fun h => ?_⟩
  have hlen := h.length_eq
  rw [hsl, hht] at hlen
  exact absurd hlen (by decide)

/-- Additions of C strings with number scores, and removals of anything. -/
theorem zset_agree_iff_add_rem :
    let ops : List ZSetOp := [.add (ascii "a") .one, .add (ascii "a") ⟨0⟩, .rem [97, 0]]
    RunOk (ZSetOp.onZSet Libc.plain) (fun s op => op.Finds Libc.plain s)
      (zsetNew, fun _ => true) ops ∧
      ∀ pre, pre <+: ops →
        (run (ZSetOp.onZSet Libc.plain) (zsetNew, fun _ => true) pre).1.1.Agree Libc.plain := by
  intro ops
  obtain ⟨hiff, hplain⟩ := zset_agree_iff Libc.plain_exact (fun _ => true) ops
  have hops : ∀ op ∈ ops, op.Plain := by
    have hnum : NulFree (ascii "a") ∧ Double.one.isNaN = false ∧ Double.isNaN ⟨0⟩ = false := by
      decide
    intro op hop
    simp only [ops, List.mem_cons, List.not_mem_nil, or_false] at hop
    rcases hop with rfl | rfl | rfl
    · exact ⟨hnum.1, hnum.2.1⟩
    · exact ⟨hnum.1, hnum.2.2⟩
    · trivial
  exact ⟨hplain hops, hiff.mpr (hplain hops)⟩

end Minired
