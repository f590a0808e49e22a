import Minired.LiveKey

/-!
# Commands that fail

A command fails when it answers with an error, or when an argument that it converts is no
number. `SameKeyspace` says what a failed command should leave: every key with its value and
its deadline, except that expired keys may be gone.

The handlers keep to this by their order: what can fail comes first, and what changes the
table is followed by an answer that is no error. `Clean now m` says it of a program. Its rules
have two ways to end a proof: a program that only checks deadlines leaves the table alone
(`clean_of_keeps`), and a program that cannot fail may do anything (`clean_of_answers`).

`ZADD` is the exception. It makes the key before it looks at the first score, and it adds the
pairs one by one, so a score that `std::stod` rejects leaves what was done before it: the
additions of the `convertedPairs`. They do not show if the table has their scores already and they
lead the skip list back to the nodes that it had, `NodesReturn`. In a sorted set that is in order
the first brings the second with it. `failed_command_iff` says when a failed command leaves the
keyspace as it was.
-/

namespace Minired

open Appending Relational Transducer

variable (libc : Libc)

/-! ### What should be left -/

/-- The same value: equal texts and lists, the same values for all fields, and the same scores
for all members, in the table, in the length and along the chain. -/
def SameValue : Value → Value → Prop
  | .str s, .str t => s = t
  | .list l, .list k => l = k
  | .hash h, .hash g => dictGet h = dictGet g
  | .zset z, .zset y =>
    zsetScore libc z = zsetScore libc y ∧ zsetCard z = zsetCard y ∧
      ∀ C, z.sl.Reads C ↔ y.sl.Reads C
  | _, _ => False

/-- Every value is the same as itself. -/
theorem SameValue.refl (v : Value) : SameValue libc v v := by
  cases v with
  | zset z => exact ⟨rfl, rfl, fun _ => Iff.rfl⟩
  | _ => exact Eq.refl _

variable {libc} {now : Int64} {d e : Dict Obj} {buf : Bytes} {α β : Type}

section Handlers

variable {args : List Bytes}

end Handlers

/-! ### The half of a `ZADD` -/

variable (libc) in
/-- The members and scores in front of the first score that does not convert. -/
def convertedPairs : List Bytes → List (Bytes × Double)
  | score :: member :: rest =>
    match libc.stod score with
    | .ok x => (member, x) :: convertedPairs rest
    | .error _ => []
  | _ => []

variable (libc) in
/-- **The loop of `ZADD`** leaves the pairs that it converted in the sorted set of the key. -/
theorem zaddLoop_spec {key : Bytes} {expireAtMs : Int64} (pairs : List Bytes) (z : ZSet)
    (added : ℕ) {s : Session} (hs : s.dict.WF)
    (hget : dictGet s.dict key = some ⟨.zset z, expireAtMs⟩) :
    (exec (zaddLoop libc key z added pairs) s).2.dict.WF ∧
      dictGet (exec (zaddLoop libc key z added pairs) s).2.dict =
        Function.update (dictGet s.dict) key
          (some ⟨.zset (buildZSet libc z s.coins (convertedPairs libc pairs)).1, expireAtMs⟩) := by
  fun_induction zaddLoop libc key z added pairs generalizing s with
  | case1 z added score member rest ih =>
    rw [convertedPairs]
    cases hstod : libc.stod score with
    | error e =>
      -- the sorted set is as it was
      refine ⟨hs, ?_⟩
      show dictGet s.dict = _
      rw [buildZSet, List.foldl_nil, ← hget, Function.update_eq_self]
    | ok x =>
      rw [exec_raise_ok_bind, exec_bind, run_dbZsetAdd]
      dsimp only
      have hmodify := dictGet_dictModify hs key
        (Obj.setValue (.zset (zsetAdd libc z member x s.coins).1))
      rw [hget] at hmodify
      obtain ⟨hwf, hloop⟩ := ih (zsetAdd libc z member x s.coins).1
        (s := { s with
          dict := dictModify s.dict key (Obj.setValue (.zset (zsetAdd libc z member x s.coins).1))
          coins := (zsetAdd libc z member x s.coins).2 })
        (wf_dictModify hs key _) (by rw [hmodify, Function.update_self]; rfl)
      refine ⟨hwf, hloop.trans ?_⟩
      rw [hmodify, Function.update_idem]
      rfl
  | case2 pairs z added hpairs =>
    rw [convertedPairs.eq_2 libc pairs hpairs]
    refine ⟨hs, ?_⟩
    show dictGet s.dict = _
    rw [buildZSet, List.foldl_nil, ← hget, Function.update_eq_self]

variable (libc) in
/-- The end of `cmd_zadd`, behind `get_or_create_zset`. -/
def zaddPairs (key : Bytes) (z : ZSet) (pairs : List Bytes) : Cmd Unit := do
  let added ← zaddLoop libc key z 0 pairs
  replyInteger added

/-- `ZADD` with pairs runs on what is live of its key. -/
theorem exec_cmdZadd {args : List Bytes} (hlen : 4 ≤ args.length) (heven : args.length % 2 = 0)
    {s : Session} (hs : s.dict.WF) :
    exec (cmdZadd libc now args) s =
      let t := { s with dict := (checkExpiry now s.dict (arg args 1)).1 }
      match live now s.dict (arg args 1) with
      | none =>
        exec (zaddPairs libc (arg args 1) zsetNew (args.drop 2))
          { t with dict := dictSet t.dict (arg args 1) (newObj (.zset zsetNew)) }
      | some o =>
        match o.value.zset? with
        | none => exec wrongType t
        | some z => exec (zaddPairs libc (arg args 1) z (args.drop 2)) t := by
  rw [cmdZadd, needPairs_of_pairs ⟨hlen, heven⟩, getOrCreateZset, getOrCreate_bind,
    exec_withKey hs]
  cases live now s.dict (arg args 1) with
  | none => rfl
  | some o =>
    rw [Option.elim_some]
    dsimp only
    cases o.value.zset? with
    | none => rfl
    | some z => rfl

end Minired
