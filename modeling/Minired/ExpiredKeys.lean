import Minired.Reachable

/-!
# Commands on an expired key

A command that names a key whose deadline has passed should do what it does when the key is
not there: give the same reply, and leave the same live keys and values. `SameOutcome`
compares two runs of a command in this way.

The lazy handlers do so (`sync_handler`). The others miss the check: `DEL` counts the key,
`EXPIRE` and `PERSIST` find it and change its deadline, and `TTL` subtracts where
`check_expiry` compares, which overflows for a deadline more than `2 ^ 63` ms ago.
`Command.Checks` is what is left, and `expired_key_gone_iff` shows that it is exact.
-/

namespace Minired

open Relational

/-- Two runs of a command end alike: in the same way, with the same replies, and with the
same live keys and values. -/
structure SameOutcome (now : Int64) (r r' : Except Fault Unit × Session) : Prop where
  result : r.1 = r'.1
  reply : r.2.writeBuf = r'.2.writeBuf
  live : live now r.2.dict = live now r'.2.dict

/-- The condition on a command that names a key with the expired object `o`. -/
def Command.Checks (now : Int64) (c : Command) (args : List Bytes) (o : Obj) : Prop :=
  match c with
  | .DEL => False
  | .EXPIRE => args.length < 3
  | .PERSIST => False
  | .TTL => -2 ^ 63 ≤ o.expireAtMs.toInt - now.toInt
  | _ => True

/-- Sessions that look the same have the same outcome. -/
theorem Over.sameOutcome {now : Int64} {closing : Bool} {r r' : Except Fault Unit × Session}
    (hres : r.1 = r'.1) (h : Over (Sync now) closing r.2 r'.2) : SameOutcome now r r' :=
  ⟨hres, by rw [h.rest], h.dict.live_eq⟩

/-! ### What DEL counts -/

/-- The number that the loop of `cmd_del` comes to. -/
def deleted (d : Dict Obj) : List Bytes → ℕ
  | [] => 0
  | key :: keys => (if (dictDel d key).2 then 1 else 0) + deleted (dictDel d key).1 keys

/-- The loop of `DEL` counts the stored keys that it deletes. -/
theorem exec_delCount (keys : List Bytes) (n : ℕ) (s : Session) :
    ∃ d, exec (keys.foldlM delCount n) s =
      (.ok (n + deleted s.dict keys), { s with dict := d }) := by
  induction keys generalizing n s with
  | nil => exact ⟨s.dict, rfl⟩
  | cons key keys ih =>
    have hone : exec (delCount n key) s = (.ok (n + if (dictDel s.dict key).2 then 1 else 0),
        { s with dict := (dictDel s.dict key).1 }) := by
      rw [delCount, exec_bind, exec_dbDel]
      cases (dictDel s.dict key).2 <;> rfl
    obtain ⟨d, hd⟩ := ih (n + if (dictDel s.dict key).2 then 1 else 0)
      { s with dict := (dictDel s.dict key).1 }
    refine ⟨d, ?_⟩
    rw [List.foldlM_cons, exec_bind_ok hone, hd, deleted, Nat.add_assoc]

/-- A key more in the database, and it is counted once more. -/
theorem deleted_of_update {d e : Dict Obj} (hd : d.WF) (he : e.WF) {k : Bytes}
    (hget : dictGet e = Function.update (dictGet d) k none) (keys : List Bytes) :
    deleted d keys = deleted e keys + if k ∈ keys ∧ (dictGet d k).isSome then 1 else 0 := by
  induction keys generalizing d e with
  | nil => simp [deleted]
  | cons key keys ih =>
    -- after the deletion of any key the two databases still differ in `k` at most
    have hnext : dictGet (dictDel e key).1 =
        Function.update (dictGet (dictDel d key).1) k none := by
      rw [dictGet_dictDel hd, dictGet_dictDel he, hget]
      by_cases hk : key = k
      · rw [hk]
      · rw [Function.update_comm hk]
    have htail := ih (wf_dictDel hd key) (wf_dictDel he key) hnext
    rw [deleted, deleted, htail, (dictDel_spec hd key).2.2, (dictDel_spec he key).2.2, hget,
      dictGet_dictDel hd]
    by_cases hk : key = k
    · -- it is counted here, and from now on both lack it
      subst hk
      simp [Nat.add_comm]
    · simp [hk, Ne.symm hk, Nat.add_assoc]

/-! ### Replies that differ -/

/-- An integer reply says which integer it is. -/
theorem replyInteger_inj {m n : ℕ} {s t : Session} (hst : s.writeBuf = t.writeBuf)
    (h : (exec (replyInteger m) s).2.writeBuf = (exec (replyInteger n) t).2.writeBuf) : m = n := by
  have hnat : ∀ k : ℕ, decimalInt k = decimal k := fun k => by
    rw [decimalInt, if_neg (not_lt.mpr (Int.natCast_nonneg k)), Int.natAbs_natCast]
  rw [replyInteger, replyInteger, exec_emit, exec_emit] at h
  dsimp only at h
  rw [hst, List.append_cancel_left_eq, List.append_cancel_right_eq, List.append_cancel_left_eq,
    hnat, hnat] at h
  exact decimal_injective h

/-- `EXPIRE` of a key that is there ends in an exception or replies 1. -/
theorem exec_cmdExpire_found {now : Int64} {args : List Bytes} (hlen : ¬args.length < 3)
    {s : Session} {o : Obj} (hget : dictGet s.dict (arg args 1) = some o) :
    (∃ e, (exec (cmdExpire now args) s).1 = .error e) ∨
      ∃ d, exec (cmdExpire now args) s = exec (replyInteger (1 : ℕ)) { s with dict := d } := by
  rw [cmdExpire, needArgs, if_neg hlen, exec_bind, exec_dbGet, hget]
  dsimp only
  -- the conversion and the two steps of arithmetic may each fail
  cases stoll (arg args 2) with
  | error e => exact Or.inl ⟨e, rfl⟩
  | ok secs =>
    rw [exec_raise_ok_bind]
    cases int64 (secs * 1000) with
    | error e => exact Or.inl ⟨e, rfl⟩
    | ok ms =>
      rw [exec_raise_ok_bind]
      cases int64 (now.toInt + ms) with
      | error e => exact Or.inl ⟨e, rfl⟩
      | ok expireAt =>
        rw [exec_raise_ok_bind, exec_bind, exec_dbModify]
        exact Or.inr ⟨_, rfl⟩

section Misses

variable {now : Int64} {args : List Bytes} {k : Bytes} {s : Session} {o : Obj}
  (hwf : s.dict.WF) (hget : dictGet s.dict k = some o)

include hwf hget

/-- `DEL` counts an expired key. -/
theorem del_counts (hk : k ∈ args.tail) :
    ¬SameOutcome now (exec (cmdDel args) s)
      (exec (cmdDel args) { s with dict := (dictDel s.dict k).1 }) := by
  intro h
  have hlen : ¬args.length < 2 := by
    rcases args with _ | ⟨name, _ | ⟨key, args⟩⟩ <;> simp_all
  -- one more is deleted where the key is, so the replies are different numbers
  have hcount := deleted_of_update hwf (wf_dictDel hwf k) (dictGet_dictDel hwf k) args.tail
  rw [if_pos ⟨hk, by rw [hget]; rfl⟩] at hcount
  obtain ⟨d, hd⟩ := exec_delCount args.tail 0 s
  obtain ⟨e, he⟩ := exec_delCount args.tail 0 { s with dict := (dictDel s.dict k).1 }
  have hreply := h.reply
  simp only [cmdDel, needArgs, if_neg hlen] at hreply
  rw [exec_bind_ok hd, exec_bind_ok he, Nat.zero_add, Nat.zero_add, hcount] at hreply
  have hsame := replyInteger_inj rfl hreply
  dsimp only at hsame
  omega

/-- `EXPIRE` of an expired key does not answer 0. -/
theorem expire_finds (hk : arg args 1 = k) (hlen : ¬args.length < 3) :
    ¬SameOutcome now (exec (cmdExpire now args) s)
      (exec (cmdExpire now args) { s with dict := (dictDel s.dict k).1 }) := by
  have hgone : exec (cmdExpire now args) { s with dict := (dictDel s.dict k).1 } =
      exec (replyInteger (0 : ℕ)) { s with dict := (dictDel s.dict k).1 } := by
    rw [cmdExpire, needArgs, if_neg hlen, hk, exec_bind, exec_dbGet, dictGet_dictDel hwf,
      Function.update_self]
    rfl
  rw [hgone]
  rintro ⟨hres, hreply, -⟩
  -- without the key there is no exception and the reply is 0
  rcases exec_cmdExpire_found hlen (hk ▸ hget) with ⟨e, he⟩ | ⟨d, hd⟩
  · rw [he] at hres
    exact absurd hres (by simp [replyInteger])
  · rw [hd] at hreply
    exact absurd (replyInteger_inj rfl hreply) (by decide)

/-- `PERSIST` of an expired key does not answer 0. -/
theorem persist_finds (hk : arg args 1 = k) (hlen : ¬args.length < 2)
    (ho : o.expired now = true) :
    ¬SameOutcome now (exec (cmdPersist args) s)
      (exec (cmdPersist args) { s with dict := (dictDel s.dict k).1 }) := by
  have hgone : exec (cmdPersist args) { s with dict := (dictDel s.dict k).1 } =
      exec (replyInteger (0 : ℕ)) { s with dict := (dictDel s.dict k).1 } := by
    rw [cmdPersist, needArgs, if_neg hlen, hk, exec_bind, exec_dbGet, dictGet_dictDel hwf,
      Function.update_self]
    rfl
  -- `cmd_persist` asks for a deadline, not whether it has passed
  have hfound : exec (cmdPersist args) s = exec (replyInteger (1 : ℕ))
      { s with dict := dictModify s.dict k fun o => { o with expireAtMs := 0 } } := by
    rw [cmdPersist, needArgs, if_neg hlen, hk, exec_bind, exec_dbGet, hget]
    dsimp only
    rw [if_neg (Obj.expired_iff.mp ho).1, exec_bind, exec_dbModify]
    rfl
  rw [hgone, hfound]
  exact fun h => absurd (replyInteger_inj rfl h.reply) (by decide)

/-- `TTL` of an expired key does not return when its subtraction overflows. -/
theorem ttl_overflows (hk : arg args 1 = k) (hlen : ¬args.length < 2)
    (ho : o.expired now = true) (hover : ¬LLONG_MIN ≤ o.expireAtMs.toInt - now.toInt) :
    ¬SameOutcome now (exec (cmdTtl now args) s)
      (exec (cmdTtl now args) { s with dict := (dictDel s.dict k).1 }) := by
  have hgone : dictGet (dictDel s.dict k).1 (arg args 1) = none := by
    rw [dictGet_dictDel hwf, hk, Function.update_self]
  rw [exec_cmdTtl_overflow hlen (hk ▸ hget) ho hover, exec_cmdTtl_missing hlen hgone]
  exact fun h => absurd h.result (by simp [replyInteger])

end Misses

variable {libc : Libc} {now : Int64}

/-- The commands that do not check the deadline cannot hide the key. -/
theorem not_sameOutcome {c : Command} {args : List Bytes} {k : Bytes} {s : Session} {o : Obj}
    (hwf : s.dict.WF) (hk : k ∈ c.keys args) (hget : dictGet s.dict k = some o)
    (ho : o.expired now = true) (hc : ¬c.Checks now args o) :
    ¬SameOutcome now (exec (c.handler libc now args) s)
      (exec (c.handler libc now args) { s with dict := (dictDel s.dict k).1 }) := by
  cases c with
  | DEL => exact del_counts hwf hget hk
  | EXPIRE => exact expire_finds hwf hget (eq_arg_of_mem_take hk).1 hc
  | PERSIST =>
    obtain ⟨harg, hlen⟩ := eq_arg_of_mem_take hk
    exact persist_finds hwf hget harg hlen ho
  | TTL =>
    obtain ⟨harg, hlen⟩ := eq_arg_of_mem_take hk
    exact ttl_overflows hwf hget harg hlen ho hc
  | _ => exact absurd trivial hc

/-- The others answer as if the key was not there. -/
theorem sameOutcome {c : Command} {args : List Bytes} {k : Bytes} {s : Session} {o : Obj}
    (hwf : s.dict.WF) (hk : k ∈ c.keys args) (hget : dictGet s.dict k = some o)
    (ho : o.expired now = true) (hc : c.Checks now args o) :
    SameOutcome now (exec (c.handler libc now args) s)
      (exec (c.handler libc now args) { s with dict := (dictDel s.dict k).1 }) := by
  have hover : Over (Sync now) s.closing s { s with dict := (dictDel s.dict k).1 } :=
    ⟨Sync.of_dictDel hwf hget ho, rfl, rfl⟩
  by_cases hlazy : c.isLazy = true
  · -- these check the deadline themselves
    have hfits : c.NoOverflow now s.dict args := by
      rintro rfl - o' ho'
      rw [(eq_arg_of_mem_take hk).1, hget] at ho'
      obtain rfl := Option.some.inj ho'
      exact hc
    obtain ⟨hres, hrel⟩ := sync_handler libc hlazy hover hfits
    exact hrel.sameOutcome hres
  · cases c with
    | EXPIRE =>
      -- too few arguments: both sides reply with the same error
      have hshort : cmdExpire now args =
          replyError ("wrong number of arguments for '" ++ "expire" ++ "'") := if_pos hc
      show SameOutcome now (exec (cmdExpire now args) _) (exec (cmdExpire now args) _)
      rw [hshort]
      obtain ⟨hres, hrel⟩ := agrees_emit _ s _ hover
      exact hrel.sameOutcome hres
    | DEL => exact absurd hc id
    | PERSIST => exact absurd hc id
    -- the rest name no key, or are lazy
    | _ => first | exact absurd hk List.not_mem_nil | exact absurd rfl hlazy

/-- `SET k v` and `EXPIRE k 1`, both at 1000 ms, the replies already sent. -/
def oneSecondKey : Session :=
  let s := (exec (dispatchCommand Libc.plain 1000 [ascii "SET", ascii "k", ascii "v"])
    Session.fresh).2
  let s := (exec (dispatchCommand Libc.plain 1000 [ascii "EXPIRE", ascii "k", ascii "1"]) s).2
  { s with writeBuf := [] }

/-- It is reached by `SET` and `EXPIRE`. -/
theorem reachable_oneSecondKey : Reachable Libc.plain oneSecondKey.dict :=
  .command 1000 _ (.command 1000 _ reachable_fresh)

/-- The object of the key. -/
theorem get_oneSecondKey : dictGet oneSecondKey.dict (ascii "k") = some ⟨.str (ascii "v"), 2000⟩ :=
  rfl

/-- **An expired key is gone** for a command exactly when the command checks the deadline: it
is not `DEL`, not `PERSIST`, not `EXPIRE` with all its arguments, and not a `TTL` whose
subtraction overflows. In these cases the outcome is not that on the database without the
key; in all others it is. -/
theorem expired_key_gone_iff {s : Session} (hs : Reachable libc s.dict) {name : Bytes}
    {c : Command} (hc : findCommand name = some c) {args : List Bytes} {k : Bytes}
    (hk : k ∈ c.keys (name :: args)) {o : Obj} (hget : dictGet s.dict k = some o)
    (hne : o.expireAtMs ≠ 0) (hle : o.expireAtMs.toInt ≤ now.toInt) :
    SameOutcome now (exec (dispatchCommand libc now (name :: args)) s)
        (exec (dispatchCommand libc now (name :: args)) { s with dict := (dictDel s.dict k).1 }) ↔
      c.Checks now (name :: args) o := by
  have ho : o.expired now = true := Obj.expired_iff.mpr ⟨hne, hle⟩
  rw [dispatchCommand_of_find hc]
  constructor
  · intro h
    by_contra hnot
    exact not_sameOutcome hs.wf hk hget ho hnot h
  · exact sameOutcome hs.wf hk hget ho

/-- The key of `oneSecondKey` at 2000 ms: gone for `GET`, not for `DEL`. -/
theorem expired_key_gone_get :
    SameOutcome 2000 (exec (dispatchCommand Libc.plain 2000 [ascii "get", ascii "k"]) oneSecondKey)
        (exec (dispatchCommand Libc.plain 2000 [ascii "get", ascii "k"])
          { oneSecondKey with dict := (dictDel oneSecondKey.dict (ascii "k")).1 }) ∧
      ¬SameOutcome 2000
        (exec (dispatchCommand Libc.plain 2000 [ascii "del", ascii "k"]) oneSecondKey)
        (exec (dispatchCommand Libc.plain 2000 [ascii "del", ascii "k"])
          { oneSecondKey with dict := (dictDel oneSecondKey.dict (ascii "k")).1 }) :=
  ⟨(expired_key_gone_iff (c := .GET) reachable_oneSecondKey (by decide) (by decide)
      get_oneSecondKey (by decide) (by decide)).mpr trivial,
    fun h => (expired_key_gone_iff (c := .DEL) reachable_oneSecondKey (by decide) (by decide)
      get_oneSecondKey (by decide) (by decide)).mp h⟩

/-- The key of `oneSecondKey` has expired at 2000 ms, but `PERSIST` replies 1, where it
replies 0 without the key, and the key is live again. -/
theorem persist_revives_expired_key :
    let cmd := [ascii "PERSIST", ascii "k"]
    let r := exec (dispatchCommand Libc.plain 2000 cmd) oneSecondKey
    let r' := exec (dispatchCommand Libc.plain 2000 cmd)
      { oneSecondKey with dict := (dictDel oneSecondKey.dict (ascii "k")).1 }
    Reachable Libc.plain oneSecondKey.dict ∧ findCommand (ascii "PERSIST") = some .PERSIST ∧
      ascii "k" ∈ Command.PERSIST.keys cmd ∧
      dictGet oneSecondKey.dict (ascii "k") = some ⟨.str (ascii "v"), 2000⟩ ∧
      r.2.writeBuf = ascii ":1" ++ crlf ∧ r'.2.writeBuf = ascii ":0" ++ crlf ∧
      (live 2000 r.2.dict (ascii "k")).isSome = true ∧
      (live 2000 r'.2.dict (ascii "k")).isSome = false ∧ ¬SameOutcome 2000 r r' := by
  intro cmd r r'
  refine ⟨reachable_oneSecondKey, by decide, by decide, rfl, by decide, by decide, by decide,
    by decide, fun h => ?_⟩
  exact absurd h.reply (by decide)

end Minired
