import Minired.ZSetAgree
import Minired.RdbCodec

/-!
# Additions one after the other

`sl_insert` and `sl_delete` keep a skip list linked whatever the members and the scores are, also
where they miss the node they look for.

The loop of `cmd_zadd` and that of `rdb_load` add pairs to a sorted set one after the other,
`buildZSet`. An addition puts one node into the skip list, and may take old ones out in front of
it: `zset_add` the one that the score of the table leads to, and `sl_insert` one of the same
C string. `NoneTakenOut` says that no addition of a list does, as it is when all C strings are
different (`noneTakenOut_of_cstr`). Then, and only then, there is one node more for each pair
(`length_buildZSet_eq_iff`), and the new nodes are the pairs (`perm_buildZSet`).
-/

namespace Minired

open Chain

/-! ### Linked skip lists -/

/-- `sl_delete` keeps the skip list linked, whether it finds the node or not. -/
theorem SkipList.Holds.delete {sl : SkipList} {C : List (Bytes × Double)} (hC : sl.Holds C)
    (member : Bytes) (score : Double) :
    ∃ C', (slDelete sl member score).1.Holds C' ∧
      ∀ c ∈ C, cstr c.1 ≠ cstr member → c ∈ C' := by
  obtain ⟨C₁, C₂, rfl, -, ⟨-, hsame⟩ | ⟨c, C₃, rfl, hzero, -, hholds⟩⟩ :=
    slDelete_holds hC member score
  · exact ⟨C₁ ++ C₂, by rwa [hsame], fun c hc _ => hc⟩
  · refine ⟨C₁ ++ C₃, hholds, fun d hd hne => ?_⟩
    -- the one node that goes has the member, as a C string
    rcases List.mem_append.mp hd with hd | hd
    · exact List.mem_append_left C₃ hd
    · rcases List.mem_cons.mp hd with rfl | hd
      · exact absurd ((strcmp_eq_zero_iff d.1 member).mp hzero) hne
      · exact List.mem_append_right C₁ hd

/-- `sl_insert` keeps it linked, and the new node is there. -/
theorem SkipList.Holds.insert {sl : SkipList} {C : List (Bytes × Double)} (hC : sl.Holds C)
    (member : Bytes) (score : Double) {lvl : ℕ} (hlvl : 0 < lvl) :
    ∃ C', (slInsert sl member score lvl).Holds C' ∧ (member, score) ∈ C' := by
  have hinsert := slInsert_holds hC member score hlvl
  cases hfind : C.find? fun c => decide (strcmp c.1 member = 0) with
  | none =>
    rw [hfind] at hinsert
    obtain ⟨C₁, C₂, -, -, hholds⟩ := hinsert C rfl
    exact ⟨_, hholds, List.mem_append_right C₁ List.mem_cons_self⟩
  | some c =>
    -- an old node of the member goes first
    rw [hfind] at hinsert
    obtain ⟨C', hbefore, -⟩ := hC.delete member c.2
    obtain ⟨C₁, C₂, -, -, hholds⟩ := hinsert C' hbefore
    exact ⟨_, hholds, List.mem_append_right C₁ List.mem_cons_self⟩

/-- The length counts the nodes. -/
theorem SkipList.Holds.length_eq {sl : SkipList} {C : List (Bytes × Double)} (hC : sl.Holds C) :
    sl.length = C.length := by
  obtain ⟨L, hR, rfl⟩ := hC
  rw [List.length_map, hR.length_eq]

/-! ### The number of nodes -/

/-- An insertion of the member takes a node out: the scan of `sl_insert` finds a node of the same
C string, and the search of `sl_delete` for its score stops there. -/
def SkipList.Replaces (sl : SkipList) (member : Bytes) : Prop :=
  ∃ old, slGetScore sl member = some old ∧ StopsAt sl member old

/-- A deletion takes a node out if and only if its search stops there. -/
theorem length_slDelete {sl : SkipList} {C : List (Bytes × Double)} (hC : sl.Holds C)
    (member : Bytes) (score : Double) :
    ∃ C', (slDelete sl member score).1.Holds C' ∧
      (StopsAt sl member score → C'.length + 1 = C.length) ∧
      (¬StopsAt sl member score → C' = C) := by
  obtain ⟨C₁, C₂, rfl, -, ⟨-, hsame⟩ | ⟨c, C₃, rfl, -, hfound, hholds⟩⟩ :=
    slDelete_holds hC member score
  · refine ⟨C₁ ++ C₂, by rwa [hsame], fun hstop => ?_, fun _ => rfl⟩
    rw [← slDelete_snd, hsame] at hstop
    exact absurd hstop Bool.false_ne_true
  · refine ⟨C₁ ++ C₃, hholds, fun _ => ?_, fun hstop => absurd (slDelete_snd.mp hfound) hstop⟩
    simp only [List.length_append, List.length_cons]
    omega

/-- An insertion adds a node, and takes one out before when it replaces it. -/
theorem length_slInsert {sl : SkipList} {C : List (Bytes × Double)} (hC : sl.Holds C)
    (member : Bytes) (score : Double) {lvl : ℕ} (hlvl : 0 < lvl) :
    (sl.Replaces member → (slInsert sl member score lvl).length = sl.length) ∧
      (¬sl.Replaces member → (slInsert sl member score lvl).length = sl.length + 1) := by
  -- the new node is placed into whatever list is there
  have hplace : ∀ {sl' : SkipList} {C' : List (Bytes × Double)} (hC' : sl'.Holds C')
      (update : ℕ → Addr), (slPlace sl' member score lvl
        (slSearch sl' member score update)).length = C'.length + 1 := by
    intro sl' C' hC' update
    obtain ⟨C₁, C₂, rfl, -, hholds⟩ := slPlace_holds hC' member score hlvl update
    rw [hholds.length_eq]
    simp only [List.length_append, List.length_cons]
    omega
  unfold SkipList.Replaces slGetScore
  rw [slInsert, hC.length_eq]
  cases hcur : (firstFrom (slForward sl 0) (addrIs sl member) sl.brk sl.header).bind sl.mem with
  | none =>
    refine ⟨?_, fun _ => hplace hC _⟩
    rintro ⟨old, hold, -⟩
    cases hold
  | some cur =>
    obtain ⟨C', hC', hstops, hmisses⟩ := length_slDelete hC member cur.score
    constructor
    · rintro ⟨old, hold, hstop⟩
      obtain rfl : cur.score = old := Option.some.inj hold
      exact (hplace hC' _).trans (hstops hstop)
    · intro hnot
      have hmiss : ¬StopsAt sl member cur.score := fun hstop => hnot ⟨cur.score, rfl, hstop⟩
      exact (hplace hC' _).trans (congrArg (·.length + 1) (hmisses hmiss))

/-- An insertion adds at most one node. -/
theorem length_slInsert_le {sl : SkipList} {C : List (Bytes × Double)} (hC : sl.Holds C)
    (member : Bytes) (score : Double) {lvl : ℕ} (hlvl : 0 < lvl) :
    (slInsert sl member score lvl).length ≤ sl.length + 1 := by
  obtain ⟨hreplaced, hadded⟩ := length_slInsert hC member score hlvl
  by_cases h : sl.Replaces member
  · exact (hreplaced h).trans_le (Nat.le_succ _)
  · exact (hadded h).le

/-- An insertion that takes no node out puts its pair among the others. -/
theorem slInsert_of_not_replaces {sl : SkipList} {C : List (Bytes × Double)} (hC : sl.Holds C)
    {member : Bytes} (hnot : ¬sl.Replaces member) (score : Double) {lvl : ℕ} (hlvl : 0 < lvl) :
    ∃ C', (slInsert sl member score lvl).Holds C' ∧ C'.Perm ((member, score) :: C) := by
  obtain ⟨C₁, C₂, rfl, -, hholds⟩ := slInsert_holds hC member score hlvl C (by
    have hfirst := firstFrom_holds hC member
    cases hfind : C.find? fun c => decide (strcmp c.1 member = 0) with
    | none => rfl
    | some c =>
      -- the scan finds a node, but the search for its score does not
      rw [hfind, Option.map_eq_some_iff] at hfirst
      obtain ⟨cur, hcur, rfl⟩ := hfirst
      show (slDelete sl member cur.score).1.Holds C
      rw [slDelete_of_not_stopsAt fun hstop => hnot ⟨cur.score, ?_, hstop⟩]
      · exact hC
      · rw [slGetScore, hcur]
        rfl)
  exact ⟨_, hholds, List.perm_middle⟩

section Absent

variable {sl : SkipList} {C : List (Bytes × Double)} (hC : sl.Holds C) {member : Bytes}
  (hne : ∀ c ∈ C, cstr c.1 ≠ cstr member)

include hC hne

/-- Without a node of the member's C string no search stops at one. -/
theorem not_stopsAt (score : Double) : ¬StopsAt sl member score := by
  intro hstop
  obtain ⟨C₁, C₂, rfl, -, ⟨-, hsame⟩ | ⟨c, C₃, rfl, hzero, -⟩⟩ := slDelete_holds hC member score
  · rw [← slDelete_snd, hsame] at hstop
    exact absurd hstop Bool.false_ne_true
  · exact hne c (List.mem_append_right C₁ List.mem_cons_self) ((strcmp_eq_zero_iff _ _).mp hzero)

/-- Without a node of the member's C string nothing is taken out. -/
theorem not_replaces : ¬sl.Replaces member := by
  rintro ⟨old, -, hstop⟩
  exact not_stopsAt hC hne old hstop

end Absent

/-! ### One addition -/

variable (libc : Libc)

/-- An addition of the member takes a node out: `zset_add` the one that the score of the table
leads to, or `sl_insert` one that it replaces. -/
def ZSet.TakesOut (z : ZSet) (member : Bytes) : Prop :=
  (∃ old, htGetScore libc z.ht member = some old ∧ StopsAt z.sl member old) ∨
    z.sl.Replaces member

variable {libc}

/-- An addition that takes no node out is an insertion into the skip list as it is. -/
theorem zsetAdd_of_not_takesOut {z : ZSet} {member : Bytes} (hnot : ¬z.TakesOut libc member)
    (score : Double) (coins : Coins) :
    (zsetAdd libc z member score coins).1.sl =
      slInsert z.sl member score (randomLevel coins).1 := by
  cases hold : htGetScore libc z.ht member with
  | none => exact zsetAdd_of_absent libc hold score coins
  | some old =>
    rw [zsetAdd_of_present libc hold,
      slDelete_of_not_stopsAt fun hstop => hnot (Or.inl ⟨old, hold, hstop⟩)]

variable (libc) in
/-- **An addition adds a node** if it takes none out, and none otherwise. -/
theorem length_zsetAdd {z : ZSet} {C : List (Bytes × Double)} (hC : z.sl.Holds C)
    (member : Bytes) (score : Double) (coins : Coins) :
    (z.TakesOut libc member →
        (zsetAdd libc z member score coins).1.sl.length ≤ z.sl.length) ∧
      (¬z.TakesOut libc member →
        (zsetAdd libc z member score coins).1.sl.length = z.sl.length + 1) := by
  have hlvl : 0 < (randomLevel coins).1 := (randomLevel_bounds coins).1
  constructor
  · intro htakes
    by_cases hfirst : ∃ old, htGetScore libc z.ht member = some old ∧ StopsAt z.sl member old
    · -- one node is gone before the insertion, which adds at most one
      obtain ⟨old, hold, hstop⟩ := hfirst
      obtain ⟨C', hC', hstops, -⟩ := length_slDelete hC member old
      rw [zsetAdd_of_present libc hold, hC.length_eq]
      have hinsert := length_slInsert_le hC' member score hlvl
      rw [hC'.length_eq] at hinsert
      exact hinsert.trans (hstops hstop).le
    · -- the list is as it was when the insertion replaces a node
      have hsl : (zsetAdd libc z member score coins).1.sl =
          slInsert z.sl member score (randomLevel coins).1 := by
        cases hold : htGetScore libc z.ht member with
        | none => exact zsetAdd_of_absent libc hold score coins
        | some old =>
          rw [zsetAdd_of_present libc hold,
            slDelete_of_not_stopsAt fun hstop => hfirst ⟨old, hold, hstop⟩]
      rw [hsl]
      exact ((length_slInsert hC member score hlvl).1 (htakes.resolve_left hfirst)).le
  · intro hnot
    rw [zsetAdd_of_not_takesOut hnot]
    exact (length_slInsert hC member score hlvl).2 fun h => hnot (Or.inr h)

variable (libc) in
/-- An addition keeps the skip list linked, and the new node is there. -/
theorem exists_holds_zsetAdd {z : ZSet} {C : List (Bytes × Double)} (hC : z.sl.Holds C)
    (member : Bytes) (score : Double) (coins : Coins) :
    ∃ C', (zsetAdd libc z member score coins).1.sl.Holds C' ∧ (member, score) ∈ C' := by
  have hlvl : 0 < (randomLevel coins).1 := (randomLevel_bounds coins).1
  cases hold : htGetScore libc z.ht member with
  | none =>
    rw [zsetAdd_of_absent libc hold]
    exact hC.insert member score hlvl
  | some old =>
    -- the node of the old score goes first, if it is found
    obtain ⟨C', hC', -⟩ := hC.delete member old
    rw [zsetAdd_of_present libc hold]
    exact hC'.insert member score hlvl

/-! ### Additions one after the other -/

variable (libc) in
/-- No addition of the pairs, one after the other, takes a node out. -/
def NoneTakenOut (z : ZSet) (coins : Coins) : List (Bytes × Double) → Prop
  | [] => True
  | (member, score) :: cs =>
    ¬z.TakesOut libc member ∧
      NoneTakenOut (zsetAdd libc z member score coins).1 (zsetAdd libc z member score coins).2 cs

variable (libc) in
/-- Additions add at most one node each. -/
theorem length_buildZSet_le (cs : List (Bytes × Double)) {z : ZSet}
    {C : List (Bytes × Double)} (hC : z.sl.Holds C) (coins : Coins) :
    (buildZSet libc z coins cs).1.sl.length ≤ z.sl.length + cs.length := by
  induction cs generalizing z C coins with
  | nil => exact le_rfl
  | cons c cs ih =>
    obtain ⟨C', hC', -⟩ := exists_holds_zsetAdd libc hC c.1 c.2 coins
    have hrest := ih hC' (zsetAdd libc z c.1 c.2 coins).2
    have hstep : (zsetAdd libc z c.1 c.2 coins).1.sl.length ≤ z.sl.length + 1 := by
      obtain ⟨htaken, hadded⟩ := length_zsetAdd libc hC c.1 c.2 coins
      by_cases h : z.TakesOut libc c.1
      · exact (htaken h).trans (Nat.le_succ _)
      · exact (hadded h).le
    rw [List.length_cons]
    exact hrest.trans (by omega)

variable (libc) in
/-- **Additions add one node each** if and only if they take none out. -/
theorem length_buildZSet_eq_iff (cs : List (Bytes × Double)) {z : ZSet}
    {C : List (Bytes × Double)} (hC : z.sl.Holds C) (coins : Coins) :
    (buildZSet libc z coins cs).1.sl.length = z.sl.length + cs.length ↔
      NoneTakenOut libc z coins cs := by
  induction cs generalizing z C coins with
  | nil => exact iff_of_true rfl trivial
  | cons c cs ih =>
    obtain ⟨C', hC', -⟩ := exists_holds_zsetAdd libc hC c.1 c.2 coins
    have hrest := ih hC' (zsetAdd libc z c.1 c.2 coins).2
    have hle := length_buildZSet_le libc cs hC' (zsetAdd libc z c.1 c.2 coins).2
    obtain ⟨htaken, hadded⟩ := length_zsetAdd libc hC c.1 c.2 coins
    have hcons : buildZSet libc z coins (c :: cs) =
        buildZSet libc (zsetAdd libc z c.1 c.2 coins).1 (zsetAdd libc z c.1 c.2 coins).2 cs := rfl
    rw [NoneTakenOut, ← hrest, hcons, List.length_cons]
    by_cases h : z.TakesOut libc c.1
    · -- the node that is missing is never made up for
      have hshort := htaken h
      exact iff_of_false (by omega) fun hboth => hboth.1 h
    · have hlong := hadded h
      rw [hlong, and_iff_right h]
      omega

/-- **Additions that take no node out** leave the pairs among the old nodes. -/
theorem perm_buildZSet (cs : List (Bytes × Double)) {z : ZSet} {C : List (Bytes × Double)}
    (hC : z.sl.Holds C) (coins : Coins) (hnone : NoneTakenOut libc z coins cs) :
    ∃ C', (buildZSet libc z coins cs).1.sl.Holds C' ∧ C'.Perm (cs ++ C) := by
  induction cs generalizing z C coins with
  | nil => exact ⟨C, hC, List.Perm.refl _⟩
  | cons c cs ih =>
    obtain ⟨hnot, hnone⟩ := hnone
    obtain ⟨C', hC', hperm⟩ := slInsert_of_not_replaces hC (fun h => hnot (Or.inr h)) c.2
      (randomLevel_bounds coins).1
    rw [← zsetAdd_of_not_takesOut hnot] at hC'
    obtain ⟨C'', hC'', hperm'⟩ := ih hC' (zsetAdd libc z c.1 c.2 coins).2 hnone
    exact ⟨C'', hC'', hperm'.trans ((hperm.append_left cs).trans List.perm_middle)⟩

/-- Members that differ as C strings, from each other and from the nodes, take nothing out. -/
theorem noneTakenOut_of_cstr (cs : List (Bytes × Double)) {z : ZSet}
    {C : List (Bytes × Double)} (hC : z.sl.Holds C) (coins : Coins)
    (hnodup : (cs.map fun c => cstr c.1).Nodup)
    (hne : ∀ c ∈ C, ∀ d ∈ cs, cstr c.1 ≠ cstr d.1) : NoneTakenOut libc z coins cs := by
  induction cs generalizing z C coins with
  | nil => trivial
  | cons d cs ih =>
    obtain ⟨hnew, hnodup⟩ := List.nodup_cons.mp hnodup
    have hhead : ∀ c ∈ C, cstr c.1 ≠ cstr d.1 := fun c hc => hne c hc d List.mem_cons_self
    have hnot : ¬z.TakesOut libc d.1 := by
      rintro (⟨old, -, hstop⟩ | hreplaces)
      · exact not_stopsAt hC hhead old hstop
      · exact not_replaces hC hhead hreplaces
    -- the new node stands among the old ones
    obtain ⟨C', hC', hperm⟩ := slInsert_of_not_replaces hC (not_replaces hC hhead) d.2
      (randomLevel_bounds coins).1
    rw [← zsetAdd_of_not_takesOut hnot] at hC'
    refine ⟨hnot, ih hC' _ hnodup fun c hc e he => ?_⟩
    rcases List.mem_cons.mp (hperm.subset hc) with rfl | hc
    · exact fun heq => hnew (List.mem_map.mpr ⟨e, he, heq.symm⟩)
    · exact hne c hc e (List.mem_cons_of_mem d he)

/-! ### The coins -/

/-- Any coins can be what an addition leaves. -/
theorem surjective_randomLevel : Function.Surjective fun coins => (randomLevel coins).2 := by
  intro coins
  -- a first coin that ends the loop at once
  refine ⟨fun n => n.casesOn false coins, ?_⟩
  rfl

variable (libc) in
/-- Additions flip the coins of one level each, whatever the sorted set is. -/
theorem buildZSet_snd (cs : List (Bytes × Double)) (z : ZSet) (coins : Coins) :
    (buildZSet libc z coins cs).2 = (fun c => (randomLevel c).2)^[cs.length] coins := by
  induction cs generalizing z coins with
  | nil => rfl
  | cons c cs ih => exact ih (zsetAdd libc z c.1 c.2 coins).1 (zsetAdd libc z c.1 c.2 coins).2

end Minired
