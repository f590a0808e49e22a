import Minired.ExpiredKeys
import Minired.Lib.BoundedSweep

/-!
# What repeated passes of the sweep remove

`sweep_cb` collects the first twenty keys that have a deadline, whether it has passed or not, and
`sweep_loop` removes those of them whose deadline has passed. On the entries of the table, in the
order of `dict_each`, one pass is the pass of a bounded sweep (`entries_sweepPass`): what is
eligible has a deadline, and what is due has expired.

The next pass begins at the first bucket again and finds the same unexpired keys there. So an
expired key is out of reach of all passes when twenty unexpired keys with a deadline are in front
of it. **`sweep_cleans_iff`**: a pass makes progress, and the passes finally leave no expired key,
exactly when no expired key is placed like that.
-/

namespace Minired

open BoundedSweep KeyedList Relational

variable {now : Int64} {d : Dict Obj} {key : Bytes}

/-! ### One pass on the entries -/

/-- `val->expire_at_ms != 0`: what `sweep_cb` collects. -/
def hasDeadline (e : DictEntry Obj) : Bool := e.val.expireAtMs ≠ 0

/-- What `check_expiry` removes. -/
def hasExpired (now : Int64) (e : DictEntry Obj) : Bool := e.val.expired now

/-- Only a key with a deadline expires. -/
theorem hasDeadline_of_hasExpired (e : DictEntry Obj) (h : hasExpired now e = true) :
    hasDeadline e = true :=
  decide_eq_true (Obj.expired_iff.mp h).1

/-- `sweep_cb` collects keys with a deadline until it has its number. -/
theorem chainEach_sweepCb (max : ℕ) (es : List (DictEntry Obj)) (keys : List Bytes) :
    (chainEach (sweepCb max) keys es).1 =
      keys ++ ((es.filter hasDeadline).take (max - keys.length)).map DictEntry.key := by
  induction es generalizing keys with
  | nil => simp [chainEach]
  | cons e es ih =>
    rw [chainEach, sweepCb]
    by_cases hfull : keys.length ≥ max
    · rw [if_pos hfull, Nat.sub_eq_zero_of_le hfull, List.take_zero, List.map_nil, List.append_nil]
    · obtain ⟨room, hroom⟩ : ∃ room, max - keys.length = room + 1 :=
        ⟨max - keys.length - 1, by omega⟩
      rw [if_neg hfull, hroom]
      by_cases he : e.val.expireAtMs ≠ 0
      · rw [if_pos he, List.filter_cons_of_pos (show hasDeadline e = true from decide_eq_true he),
          List.take_succ_cons, List.map_cons]
        show (chainEach (sweepCb max) (keys ++ [e.key]) es).1 = _
        have hrest : max - (keys ++ [e.key]).length = room := by
          rw [List.length_append, List.length_singleton]
          omega
        rw [ih, hrest, List.append_assoc, List.singleton_append]
      · rw [if_neg he, List.filter_cons_of_neg (by simpa [hasDeadline] using he)]
        show (chainEach (sweepCb max) keys es).1 = _
        rw [ih, hroom]

/-- The keys that are collected: the first with a deadline. -/
theorem dictEach_sweepCb (d : Dict Obj) (max : ℕ) :
    dictEach d (sweepCb max) [] =
      ((d.entries.filter hasDeadline).take max).map DictEntry.key := by
  rw [dictEach_eq, chainEach_sweepCb, List.nil_append, List.length_nil, Nat.sub_zero]

/-- `check_expiry` removes the entry of the key, if it has expired. -/
theorem entries_checkExpiry (hd : d.WF) (now : Int64) (key : Bytes) :
    (checkExpiry now d key).1.entries =
      d.entries.filter fun e => !(decide (e.key = key) && hasExpired now e) := by
  by_cases h : ∃ o, dictGet d key = some o ∧ o.expired now = true
  · obtain ⟨o, hget, ho⟩ := h
    rw [checkExpiry_of_expired hget ho, (dictDel_spec hd key).2.1, without]
    refine List.filter_congr fun e he => ?_
    by_cases hkey : e.key = key
    · -- it is the entry with this object
      have hval : e.val = o := by
        have hentry := (dictGet_eq_some_iff hd).mpr (show ⟨e.key, e.val⟩ ∈ d.entries from he)
        rw [hkey, hget] at hentry
        exact (Option.some.inj hentry).symm
      simp [hkey, hasExpired, hval, ho]
    · simp [hkey]
  · push Not at h
    rw [checkExpiry_of_not_expired fun o ho => by simpa using h o ho]
    refine (List.filter_eq_self.mpr fun e he => ?_).symm
    by_cases hkey : e.key = key
    · have hget := (dictGet_eq_some_iff hd).mpr (show ⟨e.key, e.val⟩ ∈ d.entries from he)
      rw [hkey] at hget
      have hdue : hasExpired now e = false := Bool.eq_false_iff.mpr (h e.val hget)
      rw [hdue, Bool.and_false]
      rfl
    · simp [hkey]

/-- The loop of `sweep_loop` over the keys that were collected. -/
theorem entries_checkAll (hd : d.WF) (now : Int64) (keys : List Bytes) :
    (keys.foldl (fun d key => (checkExpiry now d key).1) d).entries =
      d.entries.filter fun e => !(decide (e.key ∈ keys) && hasExpired now e) := by
  induction keys generalizing d with
  | nil => exact (List.filter_eq_self.mpr fun e _ => by simp).symm
  | cons key keys ih =>
    rw [List.foldl_cons, ih (wf_checkExpiry hd now key), entries_checkExpiry hd, List.filter_filter]
    refine List.filter_congr fun e _ => ?_
    by_cases hkey : e.key = key <;> cases hasExpired now e <;> simp [hkey]

/-- **A pass of the sweep on the entries.** -/
theorem entries_sweepPass (hd : d.WF) (now : Int64) :
    (sweepPass now d).entries = pass hasDeadline (hasExpired now) 20 d.entries := by
  rw [sweepPass, entries_checkAll hd, dictEach_sweepCb, pass_eq_filter DictEntry.key 20 _ hd.nodup]
  congr!

/-- Passes one after the other. -/
theorem entries_iterate_sweepPass (hd : d.WF) (now : Int64) (n : ℕ) :
    ((sweepPass now)^[n] d).WF ∧
      ((sweepPass now)^[n] d).entries = (pass hasDeadline (hasExpired now) 20)^[n] d.entries := by
  induction n with
  | zero => exact ⟨hd, rfl⟩
  | succ n ih =>
    rw [Function.iterate_succ_apply', Function.iterate_succ_apply', ← ih.2]
    exact ⟨wf_sweepPass ih.1 now, entries_sweepPass ih.1 now⟩

/-! ### All passes -/

/-- **The condition.** In front of an expired key there are, in the order of `dict_each`, fewer
than twenty unexpired keys with a deadline. -/
def SweepReaches (now : Int64) (d : Dict Obj) : Prop :=
  Reaches hasDeadline (hasExpired now) 20 d.entries

/-- **What the sweep is for**, at a time at which a key has expired: a pass removes an expired
key, it removes nothing else, and passes at this time finally leave no expired key. -/
structure SweepCleans (now : Int64) (d : Dict Obj) : Prop where
  progress : ∃ key o, dictGet d key = some o ∧ o.expired now = true ∧
    dictGet (sweepPass now d) key = none
  only : ∀ key, dictGet (sweepPass now d) key = dictGet d key ∨
    dictGet (sweepPass now d) key = none ∧ ∃ o, dictGet d key = some o ∧ o.expired now = true
  clean : ∃ n, ∀ key o, dictGet ((sweepPass now)^[n] d) key = some o → o.expired now = false

/-- No key of the table has expired. -/
theorem unexpired_iff (hd : d.WF) :
    (∀ key o, dictGet d key = some o → o.expired now = false) ↔
      ∀ e ∈ d.entries, hasExpired now e = false := by
  constructor
  · exact fun h e he => h e.key e.val ((dictGet_eq_some_iff hd).mpr he)
  · exact fun h key o hget => h ⟨key, o⟩ ((dictGet_eq_some_iff hd).mp hget)

/-- The passes finally leave no expired key exactly under the condition. -/
theorem clean_iff (hd : d.WF) :
    (∃ n, ∀ key o, dictGet ((sweepPass now)^[n] d) key = some o → o.expired now = false) ↔
      SweepReaches now d := by
  rw [SweepReaches, ← exists_iterate_clean_iff hasDeadline_of_hasExpired]
  refine exists_congr fun n => ?_
  obtain ⟨hwf, hentries⟩ := entries_iterate_sweepPass hd now n
  rw [unexpired_iff hwf, hentries]

/-- Under the condition a pass removes an expired key. -/
theorem sweepPass_progress (hd : d.WF) (hreaches : SweepReaches now d)
    (hdue : ∃ e ∈ d.entries, hasExpired now e = true) :
    ∃ key o, dictGet d key = some o ∧ o.expired now = true ∧
      dictGet (sweepPass now d) key = none := by
  obtain ⟨e, he, hexpired, hgone⟩ :=
    exists_removed hasDeadline_of_hasExpired DictEntry.key hd.nodup hreaches hdue
  rw [← entries_sweepPass hd] at hgone
  have hget := (dictGet_eq_some_iff hd).mpr (show ⟨e.key, e.val⟩ ∈ d.entries from he)
  refine ⟨e.key, e.val, hget, hexpired, ?_⟩
  -- had the key been left, then with the same object
  rcases (Sync.refl now hd).sweep.get e.key with hsame | ⟨hnone, -⟩
  · rw [hget] at hsame
    exact absurd ((dictGet_eq_some_iff (wf_sweepPass hd now)).mp hsame) hgone
  · exact hnone

/-- **The sweep does its work exactly when no expired key stands behind twenty unexpired keys with
a deadline.** -/
theorem sweep_cleans_iff (hd : d.WF) (hexpired : ∃ key o, dictGet d key = some o ∧
      o.expireAtMs ≠ 0 ∧ o.expireAtMs.toInt ≤ now.toInt) :
    SweepCleans now d ↔ SweepReaches now d := by
  constructor
  · exact fun h => (clean_iff hd).mp h.clean
  · intro hreaches
    obtain ⟨key, o, hget, hdeadline⟩ := hexpired
    have hdue : ∃ e ∈ d.entries, hasExpired now e = true :=
      ⟨⟨key, o⟩, (dictGet_eq_some_iff hd).mp hget, Obj.expired_iff.mpr hdeadline⟩
    exact ⟨sweepPass_progress hd hreaches hdue, (Sync.refl now hd).sweep.get,
      (clean_iff hd).mpr hreaches⟩

/-- Five keys, set at 1000 ms: `a` and `d` for one second, `b` and `e` for a hundred, and `c` for
ever. -/
def mixedKeys : Session :=
  afterCommands Libc.plain 1000 ((ascii "abcde").map (fun c => [ascii "SET", [c], ascii "v"]) ++
    [[ascii "EXPIRE", ascii "a", ascii "1"], [ascii "EXPIRE", ascii "b", ascii "100"],
      [ascii "EXPIRE", ascii "d", ascii "1"], [ascii "EXPIRE", ascii "e", ascii "100"]])
    Session.fresh

/-- Where the keys of `mixedKeys` are: one that stays is in front of each that has expired. -/
theorem entries_mixedKeys :
    mixedKeys.dict.entries.map (fun e => (e.key, e.val.expireAtMs)) =
      [(ascii "e", 101000), (ascii "c", 0), (ascii "d", 2000), (ascii "b", 101000),
        (ascii "a", 2000)] := by
  decide +kernel

/-- At 2000 ms the passes remove `a` and `d`, and nothing else. -/
theorem sweep_cleans_mixedKeys : SweepCleans 2000 mixedKeys.dict := by
  have hs : Reachable Libc.plain mixedKeys.dict := reachable_fresh.afterCommands 1000 _
  have hreaches : SweepReaches 2000 mixedKeys.dict := by
    intro front e back hsplit _
    -- five keys are fewer than a pass looks at
    have hlen := congrArg List.length hsplit
    have hfive := congrArg List.length entries_mixedKeys
    rw [List.length_map] at hfive
    rw [hfive, List.length_append, List.length_cons] at hlen
    have hfront : front.length < 20 := by
      have hle : front.length + (back.length + 1) = 5 := hlen.symm
      omega
    exact List.countP_le_length.trans_lt hfront
  have hdeadline : (dictGet mixedKeys.dict (ascii "a")).map Obj.expireAtMs = some 2000 := by
    decide +kernel
  obtain ⟨o, hget, ho⟩ := Option.map_eq_some_iff.mp hdeadline
  refine (sweep_cleans_iff hs.wf ⟨ascii "a", o, hget, ?_⟩).mpr hreaches
  rw [ho]
  decide

/-- The keys `a` to `u`, set at 1000 ms, `o` for one second and the others for a hundred. -/
def crowdedKeys : Session :=
  let keys : List Bytes := (ascii "abcdefghijklmnopqrstu").map fun c => [c]
  let commands := keys.map (fun k => [ascii "SET", k, ascii "v"]) ++ keys.map fun k =>
    [ascii "EXPIRE", k, if k = ascii "o" then ascii "1" else ascii "100"]
  commands.foldl (fun s args => (exec (dispatchCommand Libc.plain 1000 args) s).2) Session.fresh

/-- They come of commands. -/
theorem reachable_crowdedKeys : Reachable Libc.plain crowdedKeys.dict := by
  unfold crowdedKeys
  extract_lets keys commands
  -- the commands are not looked at
  generalize commands = cs
  exact reachable_fresh.afterCommands 1000 cs

/-- Where the keys of `crowdedKeys` are: `o` is the last one. -/
theorem entries_crowdedKeys :
    crowdedKeys.dict.entries.map (fun e => (e.key, e.val.expireAtMs)) =
      (ascii "estibgklapuncdrhmfqj").map (fun c => ([c], 101000)) ++ [(ascii "o", 2000)] := by
  decide +kernel

/-- A deadline that is still to come. -/
theorem stays_of_later {e : DictEntry Obj} (he : e.val.expireAtMs = 101000) :
    stays hasDeadline (hasExpired 2000) e = true := by
  rw [stays, hasDeadline, hasExpired, Obj.expired, he]
  decide

/-- At 2000 ms `o` has expired, and no pass ever removes it. -/
theorem sweep_starves :
    Reachable Libc.plain crowdedKeys.dict ∧
      (∃ key o, dictGet crowdedKeys.dict key = some o ∧ o.expireAtMs ≠ 0 ∧
        o.expireAtMs.toInt ≤ (2000 : Int64).toInt) ∧
      ¬SweepCleans 2000 crowdedKeys.dict := by
  have hwf := reachable_crowdedKeys.wf
  -- the entry of `o`, and the twenty in front of it
  obtain ⟨front, last, hsplit, hfront, hlast⟩ := List.map_eq_append_iff.mp entries_crowdedKeys
  obtain ⟨e, rfl, he⟩ := List.map_eq_singleton_iff.mp hlast
  obtain ⟨hkey, hdeadline⟩ := Prod.mk.inj he
  have hget := (dictGet_eq_some_iff hwf).mpr
    (show ⟨e.key, e.val⟩ ∈ crowdedKeys.dict.entries by rw [hsplit]; simp)
  refine ⟨reachable_crowdedKeys, ⟨e.key, e.val, hget, ?_, ?_⟩, fun h => ?_⟩
  · rw [hdeadline]
    decide
  · rw [hdeadline]
  · have hcount := (clean_iff hwf).mp h.clean front e [] hsplit (by
      rw [hasExpired, Obj.expired, hdeadline]
      decide)
    have hall : ∀ x ∈ front, stays hasDeadline (hasExpired 2000) x = true := by
      intro x hx
      refine stays_of_later ?_
      have hmem : (x.key, x.val.expireAtMs) ∈ front.map fun e => (e.key, e.val.expireAtMs) :=
        List.mem_map_of_mem hx
      rw [hfront] at hmem
      obtain ⟨c, -, hc⟩ := List.mem_map.mp hmem
      exact (Prod.mk.inj hc).2.symm
    have hlen := congrArg List.length hfront
    rw [List.length_map, List.length_map] at hlen
    rw [List.countP_eq_length.mpr hall, hlen] at hcount
    exact absurd hcount (by decide)

end Minired
