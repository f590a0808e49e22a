import Minired.FailedCommands

/-!
# Empty containers

A key that holds a list, a hash or a sorted set without elements is a ghost: the commands of
its type see nothing, but `EXISTS`, `TYPE`, `SETNX` and `DBSIZE` see the key. `Value.Empty` is
the state of such a value; a sorted set counts as empty when one of its two indexes is.

The containers are made empty and filled by the same command, so no key is left empty that way
if the command returns. `LPOP` and `RPOP` delete the key with its last element, but `HDEL` and
`ZREM` do not, and these are the only steps that leave a ghost. `Command.LeavesSome` is the
condition on a step: it names not all fields, or members. `no_ghosts` proves that no run whose
steps meet it reaches a ghost.

The invariant is `Value.Full` of all values: in order, and not empty. Each handler that fills or
drains a container is a computation on its key, whose result is put into `AllValues.update`.
-/

namespace Minired

open Relational

/-- A container without elements. -/
def Value.Empty : Value → Prop
  | .str _ => False
  | .list l => l = []
  | .hash h => htableLen h = 0
  | .zset z => zsetCard z = 0 ∨ dictSize z.ht = 0

/-- A value in order that is not empty. -/
def Value.Full (v : Value) : Prop := v.WF ∧ ¬v.Empty

variable {libc : Libc} {now : Int64} {key : Bytes} {args : List Bytes} {s : Session}

/-! ### Values that are filled -/

/-- A table with a key is not empty. -/
theorem dictSize_ne_zero {α : Type} {d : Dict α} (hd : d.WF) {k : Bytes} {v : α}
    (hget : dictGet d k = some v) : dictSize d ≠ 0 := by
  have hmem := (dictGet_eq_some_iff hd).mp hget
  show d.count ≠ 0
  rw [hd.count_eq]
  exact (List.length_pos_of_mem hmem).ne'

/-- A list with an element is full. -/
theorem full_list {l : List Bytes} (hl : l ≠ []) : (Value.list l).Full := ⟨trivial, hl⟩

/-- So is a hash with a field. -/
theorem full_hash {h : Dict Bytes} (hh : h.WF) {field value : Bytes}
    (hget : dictGet h field = some value) : (Value.hash h).Full :=
  ⟨hh, dictSize_ne_zero hh hget⟩

/-- A sorted set with a node and a member in the table. -/
theorem full_zset {z : ZSet} {C : List (Bytes × Double)} (hC : z.sl.Holds C)
    {c : Bytes × Double} (hc : c ∈ C) (hht : z.ht.WF) {m text : Bytes}
    (hget : dictGet z.ht m = some text) : (Value.zset z).Full := by
  refine ⟨⟨⟨C, hC⟩, hht⟩, ?_⟩
  rintro (hcard | hsize)
  · have hlen : z.sl.length = 0 := hcard
    rw [hC.length_eq] at hlen
    exact (List.length_pos_of_mem hc).ne' hlen
  · exact dictSize_ne_zero hht hget hsize

/-- Pushing makes a list longer. -/
theorem foldl_push_ne_nil {push : List Bytes → Bytes → List Bytes} (hpush : ∀ l e, push l e ≠ [])
    {es : List Bytes} (hes : es ≠ []) (l : List Bytes) : es.foldl push l ≠ [] := by
  rw [← List.dropLast_append_getLast hes, List.foldl_append]
  exact hpush _ _

/-- A field that was set stays while more are set. -/
theorem hsetLoop_get {h : Dict Bytes} (hh : h.WF) (count : ℕ) (pairs : List Bytes)
    {field : Bytes} (hget : dictGet h field ≠ none) :
    dictGet (hsetLoop h count pairs).1 field ≠ none := by
  fun_induction hsetLoop h count pairs with
  | case1 h count f value rest isnew ih =>
    refine ih (wf_dictSet hh f value) ?_
    show dictGet (dictSet h f value) field ≠ none
    rw [dictGet_dictSet hh]
    by_cases hf : field = f
    · rw [hf, Function.update_self]
      exact Option.some_ne_none value
    · rwa [Function.update_of_ne hf]
  | case2 => exact hget

/-- **`HSET`** with a pair fills the hash. -/
theorem full_hsetLoop {h : Dict Bytes} (hh : h.WF) {pairs : List Bytes}
    (hlen : 2 ≤ pairs.length) : (Value.hash (hsetLoop h 0 pairs).1).Full := by
  rcases pairs with _ | ⟨field, _ | ⟨value, rest⟩⟩
  · exact absurd hlen (by simp)
  · exact absurd hlen (by simp)
  rw [hsetLoop]
  have hwf : (htableSet h field value).WF := wf_dictSet hh field value
  have hset : dictGet (htableSet h field value) field ≠ none := by
    show dictGet (dictSet h field value) field ≠ none
    rw [dictGet_dictSet_self hh]
    exact Option.some_ne_none value
  obtain ⟨value', hvalue'⟩ := Option.ne_none_iff_exists'.mp (hsetLoop_get hwf _ rest hset)
  exact full_hash ((valueClass_wf Libc.plain).hsetLoop _ _ rest hwf) hvalue'

/-- **`ZADD`** with a pair fills the sorted set. -/
theorem full_buildZSet {z : ZSet} (hz : (Value.zset z).WF) (coins : Coins)
    {cs : List (Bytes × Double)} (hcs : cs ≠ []) :
    (Value.zset (buildZSet libc z coins cs).1).Full := by
  -- all pairs but the last leave the set in order
  have hwf : ∀ (cs : List (Bytes × Double)) (z : ZSet) (coins : Coins), (Value.zset z).WF →
      (Value.zset (buildZSet libc z coins cs).1).WF := by
    intro cs
    induction cs with
    | nil => exact fun _ _ hz => hz
    | cons c cs ih =>
      exact fun z coins hz => ih _ _ ((valueClass_wf libc).zsetAdd z c.1 c.2 coins hz)
  obtain ⟨cs', c, rfl⟩ : ∃ cs' c, cs = cs' ++ [c] :=
    ⟨cs.dropLast, cs.getLast hcs, (List.dropLast_append_getLast hcs).symm⟩
  have hlast : (buildZSet libc z coins (cs' ++ [c])).1 =
      (zsetAdd libc (buildZSet libc z coins cs').1 c.1 c.2 (buildZSet libc z coins cs').2).1 := by
    rw [buildZSet, List.foldl_append]
    rfl
  obtain ⟨⟨C, hC, hmem⟩, hht⟩ := zsetAdd_wf libc (hwf cs' z coins hz) c.1 c.2
    (buildZSet libc z coins cs').2
  rw [hlast]
  have hget : dictGet (dictSet (buildZSet libc z coins cs').1.ht c.1 (libc.printG17 c.2)) c.1 =
      some (libc.printG17 c.2) := dictGet_dictSet_self (hwf cs' z coins hz).2 _ _
  exact full_zset hC hmem hht hget

/-! ### Values that are drained -/

/-- A field that is not named stays. -/
theorem dictGet_hdel {h : Dict Bytes} (hh : h.WF) {fields : List Bytes} {field : Bytes}
    (hfield : field ∉ fields) (count : ℕ) :
    dictGet (fields.foldl hdelCount (h, count)).1 field = dictGet h field := by
  induction fields generalizing h count with
  | nil => rfl
  | cons f fields ih =>
    obtain ⟨hne, hrest⟩ := List.ne_and_not_mem_of_not_mem_cons hfield
    refine (ih (wf_dictDel hh f) hrest _).trans ?_
    show dictGet (dictDel h f).1 field = _
    rw [dictGet_dictDel hh, Function.update_of_ne hne]

/-- What a removal leaves was there before. -/
theorem zsetScore_zsetRem {z : ZSet} (hz : z.ht.WF) (member m : Bytes) :
    zsetScore libc (zsetRem libc z member).1 m =
      if m = member then none else zsetScore libc z m := by
  rw [zsetRem]
  cases hscore : htGetScore libc z.ht member with
  | none =>
    by_cases hm : m = member
    · rw [if_pos hm, hm]
      exact hscore
    · rw [if_neg hm]
  | some score =>
    rw [zsetScore, htGetScore, dictGet_dictDel hz]
    by_cases hm : m = member
    · rw [if_pos hm, hm, Function.update_self]
      rfl
    · rw [if_neg hm, Function.update_of_ne hm]
      rfl

/-- A member that is not named keeps its score. -/
theorem zsetScore_zrem {z : ZSet} (hz : (Value.zset z).WF) {members : List Bytes} {m : Bytes}
    (hm : m ∉ members) (count : ℕ) :
    zsetScore libc (members.foldl (zremCount libc) (z, count)).1 m = zsetScore libc z m := by
  induction members generalizing z count with
  | nil => rfl
  | cons member members ih =>
    obtain ⟨hne, hrest⟩ := List.ne_and_not_mem_of_not_mem_cons hm
    refine (ih (zsetRem_wf libc hz member) hrest _).trans ?_
    rw [zsetScore_zsetRem hz.2, if_neg hne]

/-- A node whose member is none of the named ones that are present stays. -/
theorem holds_zrem {z : ZSet} (hz : (Value.zset z).WF) {members : List Bytes}
    {C : List (Bytes × Double)} (hC : z.sl.Holds C) {c : Bytes × Double} (hc : c ∈ C)
    (hne : ∀ m ∈ members, zsetScore libc z m ≠ none → cstr c.1 ≠ cstr m) (count : ℕ) :
    ∃ C', (members.foldl (zremCount libc) (z, count)).1.sl.Holds C' ∧ c ∈ C' := by
  induction members generalizing z C count with
  | nil => exact ⟨C, hC, hc⟩
  | cons member members ih =>
    obtain ⟨C', hC', hc'⟩ : ∃ C', (zsetRem libc z member).1.sl.Holds C' ∧ c ∈ C' := by
      rw [zsetRem]
      cases hscore : htGetScore libc z.ht member with
      | none => exact ⟨C, hC, hc⟩
      | some score =>
        -- the node that goes has another member
        obtain ⟨C', hC', hkeep⟩ := hC.delete member score
        refine ⟨C', hC', hkeep c hc (hne member List.mem_cons_self ?_)⟩
        rw [zsetScore, hscore]
        exact Option.some_ne_none score
    refine ih (zsetRem_wf libc hz member) hC' hc' (fun m hm hpresent => ?_) _
    refine hne m (List.mem_cons_of_mem _ hm) fun hnone => hpresent ?_
    rw [zsetScore_zsetRem hz.2, hnone, ite_self]

/-! ### Steps -/

variable (libc) in
/-- The step drains no hash and no sorted set: `HDEL` does not name all fields, and `ZREM` not
all members. A member counts as named in the skip list when its C string is that of a named
one. -/
def Command.LeavesSome (now : Int64) (d : Dict Obj) (args : List Bytes) : Command → Prop
  | .HDEL => 3 ≤ args.length → ∀ o h, live now d (arg args 1) = some o → o.value = .hash h →
      ∃ field, htableExists h field = true ∧ field ∉ args.drop 2
  | .ZREM => 3 ≤ args.length → ∀ o z, live now d (arg args 1) = some o → o.value = .zset z →
      (∃ m, zsetScore libc z m ≠ none ∧ m ∉ args.drop 2) ∧
        ∃ C, z.sl.Holds C ∧ ∃ c ∈ C, ∀ m ∈ args.drop 2, zsetScore libc z m ≠ none →
          cstr c.1 ≠ cstr m
  | _ => True

/-- No value of the database is empty, and all are in order. -/
abbrev NoGhosts (d : Dict Obj) : Prop := AllValues Value.Full d

/-- The run, if it returned, ended without a ghost. -/
abbrev EndsFull {α : Type} (run : Except Fault α × Session) : Prop :=
  Post (fun _ t => NoGhosts t.dict) (fun _ _ => True) run

/-- A program that leaves no ghosts leaves none where it ends. -/
theorem endsFull_of_keeps {α : Type} {m : Cmd α} (h : KeepsDict NoGhosts m)
    (hs : NoGhosts s.dict) : EndsFull (exec m s) :=
  (h.triple s hs).mono (fun _ _ h => h) fun _ _ _ => trivial

/-- A handler of one key: the case of what is live of the key, and a database without ghosts. -/
theorem endsFull_withKey {missing : Cmd Unit} {found : Obj → Cmd Unit} (hs : NoGhosts s.dict)
    (hmissing : ∀ t : Session, NoGhosts t.dict → EndsFull (exec missing t))
    (hfound : ∀ (o : Obj) (t : Session), live now s.dict key = some o →
      dictGet t.dict key = some o → o.value.Full → NoGhosts t.dict → EndsFull (exec (found o) t)) :
    EndsFull (exec (withKey now key missing found) s) := by
  have hcheck : NoGhosts (checkExpiry now s.dict key).1 := hs.check now key
  have hget := dictGet_checkExpiry hs.wf now key
  rw [exec_withKey hs.wf]
  cases hlive : live now s.dict key with
  | none => exact hmissing _ hcheck
  | some o =>
    refine hfound o _ hlive ?_ (hs.of_live hlive) hcheck
    show dictGet (checkExpiry now s.dict key).1 key = some o
    rw [hget, Function.update_self, hlive]

/-- A new container that is filled before anyone sees it. -/
theorem AllValues.make {G : Value → Prop} {d : Dict Obj} (h : AllValues G d) (key : Bytes)
    (w : Value) {v : Value} (hv : G v) :
    AllValues G (dictModify (dictSet d key (newObj w)) key (Obj.setValue v)) := by
  have hset : (dictSet d key (newObj w)).WF := wf_dictSet h.wf key _
  refine h.update key (wf_dictModify hset key _) (v := some ⟨v, 0⟩) ?_ fun o ho => ?_
  · rw [dictGet_dictModify hset, dictGet_dictSet h.wf, Function.update_idem, Function.update_self]
    rfl
  · exact Option.some.inj ho ▸ hv

/-- A push leaves a list with an element. -/
theorem endsFull_pushWith {push : List Bytes → Bytes → List Bytes} (name : String)
    (hpush : ∀ l e, push l e ≠ []) (hs : NoGhosts s.dict) :
    EndsFull (exec (pushWith push name now args) s) := by
  rw [pushWith, needArgs]
  split
  case isTrue => exact hs
  case isFalse hlen =>
    have helems : args.drop 2 ≠ [] := by
      rw [Ne, List.drop_eq_nil_iff]
      omega
    rw [getOrCreateList, getOrCreate_bind]
    refine endsFull_withKey hs (fun t ht => ?_) fun o t _ hget ho ht => ?_
    · exact ht.make _ _ (full_list (foldl_push_ne_nil hpush helems []))
    · cases o.value with
      | list l => exact ht.write _ (full_list (foldl_push_ne_nil hpush helems l))
      | _ => exact ht

/-- **A pop** deletes the key with its last element. -/
theorem endsFull_popWith {pop : List Bytes → List Bytes × Option Bytes} (name : String)
    (hs : NoGhosts s.dict) : EndsFull (exec (popWith pop name now args) s) := by
  rw [popWith, needArgs]
  split
  case isTrue => exact hs
  case isFalse =>
    refine endsFull_withKey hs (fun t ht => ht) fun o t _ hget ho ht => ?_
    cases o.value with
    | list l =>
      dsimp only
      rcases pop l with ⟨l', _ | val⟩
      · exact ht
      · by_cases hl : l' = []
        · -- the key is deleted behind the reply
          subst hl
          have hwf := wf_dictModify ht.wf (arg args 1) (Obj.setValue (.list []))
          show NoGhosts (dictDel (dictModify t.dict (arg args 1) (Obj.setValue (.list [])))
            (arg args 1)).1
          refine ht.update (arg args 1) (wf_dictDel hwf _) (v := none) ?_ fun o ho => by cases ho
          rw [dictGet_dictDel hwf, dictGet_dictModify ht.wf, Function.update_idem]
        · have hlen : ¬l'.length = 0 := fun h => hl (List.length_eq_zero_iff.mp h)
          dsimp only
          rw [if_neg hlen]
          exact ht.write _ (full_list hl)
    | _ => exact ht

/-- `HSET` leaves a hash with a field. -/
theorem endsFull_cmdHset (hs : NoGhosts s.dict) : EndsFull (exec (cmdHset now args) s) := by
  rw [cmdHset, needPairs]
  split
  case isTrue => exact hs
  case isFalse hlen =>
    have hpairs : 2 ≤ (args.drop 2).length := by
      rw [List.length_drop]
      omega
    rw [getOrCreateHash, getOrCreate_bind]
    refine endsFull_withKey hs (fun t ht => ?_) fun o t _ hget ho ht => ?_
    · exact ht.make _ _ (full_hsetLoop wf_dictNew hpairs)
    · cases hvalue : o.value with
      | hash h =>
        rw [hvalue] at ho
        exact ht.write _ (full_hsetLoop ho.1 hpairs)
      | _ => exact ht

/-- **`HDEL`** leaves the hash full when it does not name all fields. -/
theorem endsFull_cmdHdel (hs : NoGhosts s.dict)
    (hleaves : Command.HDEL.LeavesSome libc now s.dict args) :
    EndsFull (exec (cmdHdel now args) s) := by
  rw [cmdHdel, needArgs]
  split
  case isTrue => exact hs
  case isFalse hlen =>
    refine endsFull_withKey hs (fun t ht => ht) fun o t hlive hget ho ht => ?_
    cases hvalue : o.value with
    | hash h =>
      rw [hvalue] at ho
      obtain ⟨field, hexists, hfield⟩ := hleaves (not_lt.mp hlen) o h hlive hvalue
      obtain ⟨value, hvalue⟩ := Option.isSome_iff_exists.mp hexists
      -- the field that is not named is still there
      have hget : dictGet ((args.drop 2).foldl hdelCount (h, 0)).1 field = some value := by
        rw [dictGet_hdel ho.1 hfield, hvalue]
      exact ht.write _ (full_hash ((valueClass_wf libc).hdel _ (h, 0) ho.1) hget)
    | _ => exact ht

/-- **`ZREM`** leaves the sorted set full when it does not name all members. -/
theorem endsFull_cmdZrem (hs : NoGhosts s.dict)
    (hleaves : Command.ZREM.LeavesSome libc now s.dict args) :
    EndsFull (exec (cmdZrem libc now args) s) := by
  rw [cmdZrem, needArgs]
  split
  case isTrue => exact hs
  case isFalse hlen =>
    refine endsFull_withKey hs (fun t ht => ht) fun o t hlive hget ho ht => ?_
    cases hvalue : o.value with
    | zset z =>
      rw [hvalue] at ho
      obtain ⟨⟨m, hscore, hm⟩, C, hC, c, hc, hne⟩ := hleaves (not_lt.mp hlen) o z hlive hvalue
      obtain ⟨C', hC', hc'⟩ := holds_zrem ho.1 hC hc hne 0
      have hwf : (Value.zset ((args.drop 2).foldl (zremCount libc) (z, 0)).1).WF :=
        (valueClass_wf libc).zrem _ (z, 0) ho.1
      -- the member that is not named still has its score
      rw [← zsetScore_zrem ho.1 hm 0] at hscore
      obtain ⟨score, hscore⟩ := Option.ne_none_iff_exists'.mp hscore
      obtain ⟨text, htext, -⟩ := Option.map_eq_some_iff.mp hscore
      exact ht.write _ (full_zset hC' hc' hwf.2 htext)
    | _ => exact ht

/-- A `ZADD` that returns has converted its first score. -/
theorem convertedPairs_ne_nil {key : Bytes} {z : ZSet} {pairs : List Bytes}
    (hlen : 2 ≤ pairs.length) {s : Session} {added n : ℕ}
    (hok : (exec (zaddLoop libc key z added pairs) s).1 = .ok n) :
    convertedPairs libc pairs ≠ [] := by
  rcases pairs with _ | ⟨score, _ | ⟨member, rest⟩⟩
  · exact absurd hlen (by simp)
  · exact absurd hlen (by simp)
  rw [zaddLoop] at hok
  rw [convertedPairs]
  cases hstod : libc.stod score with
  | error e =>
    rw [hstod] at hok
    cases hok
  | ok x => exact List.cons_ne_nil _ _

/-- Adding pairs to the sorted set of a key, which may be new and empty. -/
theorem endsFull_zaddPairs {d : Dict Obj} (hd : NoGhosts d) {t : Session} (ht : t.dict.WF)
    {o : Obj} {z : ZSet} {pairs : List Bytes} (hlen : 2 ≤ pairs.length)
    (hz : (Value.zset z).WF) (hget : dictGet t.dict = Function.update (dictGet d) key (some o))
    (ho : o.value = .zset z) : EndsFull (exec (zaddPairs libc key z pairs) t) := by
  obtain ⟨value, expireAtMs⟩ := o
  obtain rfl : value = .zset z := ho
  have hkey : dictGet t.dict key = some ⟨.zset z, expireAtMs⟩ := by
    rw [hget, Function.update_self]
  obtain ⟨hwf, hloop⟩ := zaddLoop_spec libc pairs z 0 ht hkey
  rw [zaddPairs, exec_bind]
  rcases hrun : exec (zaddLoop libc key z 0 pairs) t with ⟨e | added, t'⟩
  · trivial
  · -- the loop returned, so the first score was a number, and its pair was added
    have hok := convertedPairs_ne_nil hlen (congrArg Prod.fst hrun)
    rw [hrun] at hwf hloop
    rw [hget, Function.update_idem] at hloop
    refine hd.update key hwf hloop fun o' ho' => ?_
    obtain rfl := Option.some.inj ho'
    exact full_buildZSet hz t.coins hok

/-- `ZADD` leaves a sorted set with a member, unless its first score does not convert. -/
theorem endsFull_cmdZadd (hs : NoGhosts s.dict) : EndsFull (exec (cmdZadd libc now args) s) := by
  by_cases hargs : args.length < 4 ∨ args.length % 2 ≠ 0
  · rw [cmdZadd, needPairs, if_pos hargs]
    exact hs
  push Not at hargs
  have hpairs : 2 ≤ (args.drop 2).length := by
    rw [List.length_drop]
    omega
  have hcheck : NoGhosts (checkExpiry now s.dict (arg args 1)).1 := hs.check now _
  have hget := dictGet_checkExpiry hs.wf now (arg args 1)
  rw [exec_cmdZadd hargs.1 hargs.2 hs.wf]
  cases hlive : live now s.dict (arg args 1) with
  | none =>
    -- the key is made empty, and is filled by the loop
    exact endsFull_zaddPairs hcheck (wf_dictSet hcheck.wf _ _) hpairs
      ⟨⟨[], holds_slNew⟩, wf_dictNew⟩ (dictGet_dictSet hcheck.wf _ _) rfl
  | some o =>
    have ho := hs.of_live hlive
    rw [hlive] at hget
    cases hvalue : o.value with
    | zset z =>
      rw [hvalue] at ho
      simp only [hvalue, Value.zset?]
      exact endsFull_zaddPairs hs hcheck.wf hpairs ho.1 hget hvalue
    | _ =>
      simp only [hvalue, Value.zset?]
      exact hcheck

/-- **A step** that drains no hash and no sorted set leads from a database without ghosts to
another, if it returns. -/
theorem endsFull_handler {c : Command} (hs : NoGhosts s.dict)
    (hleaves : c.LeavesSome libc now s.dict args) :
    EndsFull (exec (c.handler libc now args) s) := by
  have hfoot : ∀ k, Footprint now k Value.Full NoGhosts := footprint_allValues now
  -- only the handlers that write containers are left after these two kinds
  by_cases hread : c.isRead = true
  · exact endsFull_of_keeps (keeps_read libc hread fun k _ => (hfoot k).check) hs
  by_cases htext : c.isText = true
  · have hstr : ∀ text, (Value.str text).Full := fun text => ⟨trivial, id⟩
    exact endsFull_of_keeps (keeps_text hstr htext fun k _ => hfoot k) hs
  cases c with
  | FLUSHDB => exact AllValues.fresh
  | LPUSH => exact endsFull_pushWith "lpush" (fun l e => List.cons_ne_nil e l) hs
  | RPUSH => exact endsFull_pushWith "rpush" (fun l e => by simp [listRpush]) hs
  | LPOP => exact endsFull_popWith "lpop" hs
  | RPOP => exact endsFull_popWith "rpop" hs
  | HSET => exact endsFull_cmdHset hs
  | HDEL => exact endsFull_cmdHdel hs hleaves
  | ZADD => exact endsFull_cmdZadd hs
  | ZREM => exact endsFull_cmdZrem hs hleaves
  | _ =>
    first
    | exact absurd rfl hread
    | exact absurd rfl htext

/-! ### Runs -/

variable (libc) in
/-- The sessions that commands lead to from an empty database, when each of them returns and
meets the condition `ok`. -/
inductive CommandRun (ok : Int64 → Dict Obj → List Bytes → Prop) : Session → Prop
  | start {s : Session} (hs : s.dict = dictNew) : CommandRun ok s
  | step {s : Session} (hs : CommandRun ok s) (now : Int64) (args : List Bytes)
      (hok : ok now s.dict args)
      (hreturns : (exec (dispatchCommand libc now args) s).1 = .ok ()) :
      CommandRun ok (exec (dispatchCommand libc now args) s).2

variable (libc) in
/-- The condition on a step: the command that it finds, if any, drains nothing. -/
def StepLeavesSome (now : Int64) (d : Dict Obj) (args : List Bytes) : Prop :=
  ∀ c, args.head?.bind findCommand = some c → c.LeavesSome libc now d args

/-- **Invariant.** No value of the database is empty. -/
theorem CommandRun.noGhosts (h : CommandRun libc (StepLeavesSome libc) s) :
    NoGhosts s.dict := by
  induction h with
  | start hs =>
    rw [hs]
    exact AllValues.fresh
  | @step s hs now args hok hreturns ih =>
    rcases args with _ | ⟨name, args⟩
    · exact ih
    cases hfind : findCommand name with
    | none =>
      rw [dispatchCommand, hfind]
      exact ih
    | some c =>
      rw [dispatchCommand_of_find hfind] at hreturns ⊢
      -- the step condition is that of its command
      have hend := endsFull_handler ih (hok c hfind)
      rcases hrun : exec (c.handler libc now (name :: args)) s with ⟨e | _, s'⟩
      · rw [hrun] at hreturns
        cases hreturns
      · rw [hrun] at hend
        exact hend

/-! ### What the other commands see -/

variable (libc) in
/-- No key holds an empty container, and a key without elements does not exist: `EXISTS`
replies 0, `TYPE` replies `none`, `SETNX` sets it, and `DBSIZE` counts the other keys. -/
structure Ghostless (s : Session) : Prop where
  noEmpty : ∀ key o, dictGet s.dict key = some o → ¬o.value.Empty
  gone : ∀ now name key value, (∀ o, live now s.dict key = some o → o.value.Empty) →
    (exec (cmdExists now [name, key]) s).2.writeBuf = s.writeBuf ++ (ascii ":0" ++ crlf) ∧
    (exec (cmdType now [name, key]) s).2.writeBuf = s.writeBuf ++ (ascii "+none" ++ crlf) ∧
    (exec (cmdSetnx now [name, key, value]) s).2.writeBuf = s.writeBuf ++ (ascii ":1" ++ crlf) ∧
    dictGet (exec (cmdSetnx now [name, key, value]) s).2.dict key = some (newObj (.str value))
  dbsize : ∀ args, exec (cmdDbsize args) s =
    exec (replyInteger {key | ∃ o, dictGet s.dict key = some o ∧ ¬o.value.Empty}.ncard) s

/-- `SETNX` of a key of which nothing is live. -/
theorem exec_setnx_new (hs : s.dict.WF) (hlive : live now s.dict key = none)
    {name value : Bytes} :
    exec (cmdSetnx now [name, key, value]) s =
      exec (replyInteger 1) { s with
        dict := dictSet (checkExpiry now s.dict key).1 key (newObj (.str value)) } := by
  rw [cmdSetnx, needArgs, if_neg (by simp)]
  exact exec_withKey_missing hs hlive

/-- Without empty containers, the other commands see no ghosts. -/
theorem NoGhosts.ghostless (h : NoGhosts s.dict) : Ghostless s := by
  refine ⟨fun key o ho => (h.mem key o ho).2, fun now name key value hempty => ?_, fun args => ?_⟩
  · -- nothing is live of the key
    have hlive : live now s.dict key = none := by
      cases hlive : live now s.dict key with
      | none => rfl
      | some o =>
        have hfull := (h.of_live hlive).2
        exact absurd (hempty o hlive) hfull
    have hwf := wf_checkExpiry h.wf now key
    refine ⟨?_, ?_, ?_, ?_⟩
    · rw [cmdExists, needArgs, if_neg (by simp)]
      simp only [List.tail_cons, List.foldlM_cons, List.foldlM_nil, bind_pure]
      rw [existsCount, withKey_bind, exec_withKey_missing h.wf hlive]
      rfl
    · have hkey : live now s.dict (arg [name, key] 1) = none := hlive
      rw [cmdType, needArgs, if_neg (by simp), exec_withKey_missing h.wf hkey]
      rfl
    · rw [exec_setnx_new h.wf hlive]
      rfl
    · rw [exec_setnx_new h.wf hlive]
      exact dictGet_dictSet_self hwf key (newObj (.str value))
  · -- every key counts
    have hset : {key | ∃ o, dictGet s.dict key = some o ∧ ¬o.value.Empty} =
        {key | dictGet s.dict key ≠ none} := by
      ext key
      rw [Set.mem_ofPred_eq, Set.mem_ofPred_eq, Option.ne_none_iff_exists']
      exact exists_congr fun o => and_iff_left_of_imp fun ho => (h.mem key o ho).2
    have hrel : DictRel s.dict (dictGet s.dict) := ⟨h.wf, rfl⟩
    rw [hset, ← hrel.size_eq]
    rfl

/-- **No ghosts.** In every run from an empty database whose commands return, and whose `HDEL`
and `ZREM` steps do not name all that the key has, every database that is reached has no empty
list, hash or sorted set, and a key without elements does not exist for the other commands. -/
theorem no_ghosts (h : CommandRun libc (StepLeavesSome libc) s) : Ghostless s :=
  h.noGhosts.ghostless

/-- A field is set, and then one of two fields is deleted. -/
theorem no_ghosts_after_hdel :
    let s := (exec (dispatchCommand Libc.plain 0
      [ascii "HSET", ascii "h", ascii "f", ascii "1", ascii "g", ascii "2"]) Session.fresh).2
    Ghostless (exec (dispatchCommand Libc.plain 0 [ascii "HDEL", ascii "h", ascii "f"]) s).2 := by
  intro s
  have hstart : CommandRun Libc.plain (StepLeavesSome Libc.plain) Session.fresh := .start rfl
  have hset : CommandRun Libc.plain (StepLeavesSome Libc.plain) s := by
    refine hstart.step 0 _ (fun c hc => ?_) (by decide)
    obtain rfl : Command.HSET = c := Option.some.inj ((by decide : _ = _).trans hc)
    trivial
  refine no_ghosts (hset.step 0 _ (fun c hc => ?_) (by decide))
  obtain rfl : Command.HDEL = c := Option.some.inj ((by decide : _ = _).trans hc)
  refine fun _ o h hlive hvalue => ⟨ascii "g", ?_, by decide⟩
  -- the second field is in the hash
  have hkey : ((live 0 s.dict (ascii "h")).bind fun o => o.value.hash?).any
      (htableExists · (ascii "g")) = true := by decide
  have hlive' : live 0 s.dict (ascii "h") = some o := hlive
  rw [hlive', Option.bind_some, hvalue] at hkey
  exact hkey

/-- One field is set and deleted: the hash is empty, and the key is there. -/
theorem hdel_leaves_ghost :
    ∃ s, CommandRun Libc.plain (fun _ _ _ => True) s ∧ ¬Ghostless s := by
  have hstart : CommandRun Libc.plain (fun _ _ _ => True) Session.fresh := .start rfl
  have hset := hstart.step 0 [ascii "HSET", ascii "h", ascii "f", ascii "v"] trivial
    (by decide)
  have hdel := hset.step 0 [ascii "HDEL", ascii "h", ascii "f"] trivial (by decide)
  refine ⟨_, hdel, fun h => ?_⟩
  -- the object of the key, and its hash without a field
  have hkey : ((dictGet (exec (dispatchCommand Libc.plain 0 [ascii "HDEL", ascii "h", ascii "f"])
      (exec (dispatchCommand Libc.plain 0 [ascii "HSET", ascii "h", ascii "f", ascii "v"])
        Session.fresh).2).2.dict (ascii "h")).bind fun o => o.value.hash?.map htableLen) =
      some 0 := by decide
  obtain ⟨o, ho, hlen⟩ := Option.bind_eq_some_iff.mp hkey
  refine h.noEmpty _ o ho ?_
  cases hvalue : o.value with
  | hash g =>
    rw [hvalue] at hlen
    exact Option.some.inj hlen
  | _ =>
    rw [hvalue] at hlen
    cases hlen

end Minired
