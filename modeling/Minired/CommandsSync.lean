import Minired.Commands
import Minired.Lib.Relational

/-!
# Handlers and expired keys

A handler that calls `check_expiry` on a key before it touches it cannot tell two databases
apart that differ only in expired keys. `Over R closing` lifts a relation of databases to
sessions that are otherwise equal, and `Agrees R closing m` says that `m`, run from two
sessions so related, ends with the same result and the same replies in sessions so related.

* Under `SyncAt` every access to the one key agrees: `agrees_dbGet`, `agrees_dbDel` and so on.
* `withKey` leads from `Sync` to `SyncAt` and is followed by accesses to its key only, so a
  handler built on it agrees under `Sync` (`Lazy.withKey`).
* `Command.isLazy` lists the commands whose handlers are of this kind, and `lazy_handler` puts
  them together. `TTL` is among them although it makes its own test, with a subtraction that
  can overflow; `Command.NoOverflow` is the condition under which it does not.

With equal databases on both sides the same lemmas say that the handlers keep the table's
invariant, and `closing`, which only `QUIT` sets. `keeps_handler` adds the other handlers.
-/

namespace Minired

open Relational

/-- Sessions that differ in the database only, and there by `R`. -/
structure Over (R : Dict Obj → Dict Obj → Prop) (closing : Bool) (s t : Session) : Prop where
  dict : R s.dict t.dict
  rest : t = { s with dict := t.dict }
  closing_eq : s.closing = closing

/-- The command answers alike on related sessions and leaves them related. -/
abbrev Agrees (R : Dict Obj → Dict Obj → Prop) (closing : Bool) {α : Type} (m : Cmd α) : Prop :=
  Sim (Over R closing) m m (Over R closing)

variable {R : Dict Obj → Dict Obj → Prop} {closing : Bool} {now : Int64} {key : Bytes}
  {α β : Type}

/-- Sessions stay over each other under a weaker relation of their databases. -/
theorem Over.weaken {R' : Dict Obj → Dict Obj → Prop} (h : ∀ d e, R d e → R' d e)
    {s t : Session} (hst : Over R closing s t) : Over R' closing s t :=
  ⟨h _ _ hst.dict, hst.rest, hst.closing_eq⟩

/-- A change of both databases that leads from one relation to another. -/
theorem Over.update {R' : Dict Obj → Dict Obj → Prop} {s t : Session} (hst : Over R closing s t)
    {d e : Dict Obj} (h : R' d e) :
    Over R' closing { s with dict := d } { t with dict := e } := by
  obtain ⟨-, hrest, hclosing⟩ := hst
  exact ⟨h, by rw [hrest], hclosing⟩

/-! ### What does not depend on the database -/

/-- A conversion does not look at the database. -/
theorem agrees_raise (r : Except Fault α) : Agrees R closing (raise r) := by
  cases r with
  | ok a => exact Sim.pure a
  | error e => exact Sim.throw e

/-- Nor does a reply. -/
theorem agrees_emit (data : Bytes) : Agrees R closing (emit data) := by
  refine Sim.modify fun s t hst => ?_
  obtain ⟨hdict, hrest, hclosing⟩ := hst
  exact ⟨hdict, by rw [hrest], hclosing⟩

/-- Programs that agree, one after the other, agree. -/
theorem agrees_bind {m : Cmd α} {f : α → Cmd β} (h : Agrees R closing m)
    (hf : ∀ a, Agrees R closing (f a)) : Agrees R closing (m >>= f) :=
  h.bind hf fun _ _ h => h

/-- So do both branches of a condition that is no question to the database. -/
theorem agrees_cond {c : Prop} [Decidable c] {m n : Cmd α} (hm : Agrees R closing m)
    (hn : Agrees R closing n) : Agrees R closing (if c then m else n) :=
  Sim.cond (fun _ => hm) fun _ => hn

/-- So do the rounds of a loop. -/
theorem agrees_forM {f : β → Cmd Unit} (hf : ∀ b, Agrees R closing (f b)) (bs : List β) :
    Agrees R closing (bs.forM f) := Sim.forM bs fun b _ => hf b

/-- The check of the number of arguments asks nothing of the database. -/
theorem agrees_needArgs {n : ℕ} {name : String} {args : List Bytes} {body : Cmd Unit}
    (h : Agrees R closing body) : Agrees R closing (needArgs n name args body) :=
  agrees_cond (agrees_emit _) h

/-- Nor does the check for pairs. -/
theorem agrees_needPairs {name : String} {args : List Bytes} {body : Cmd Unit}
    (h : Agrees R closing body) : Agrees R closing (needPairs name args body) :=
  agrees_cond (agrees_emit _) h

/-! ### Runs of the accesses -/

/-- Enough arguments pass the check. -/
theorem needArgs_of_le {n : ℕ} {name : String} {args : List Bytes} {body : Cmd Unit}
    (h : n ≤ args.length) : needArgs n name args body = body := if_neg (not_lt.mpr h)

/-- A reply is appended. -/
@[simp] theorem exec_emit (data : Bytes) (s : Session) :
    exec (emit data) s = (.ok (), { s with writeBuf := s.writeBuf ++ data }) := rfl

/-- A conversion that succeeds. -/
@[simp] theorem exec_raise_ok_bind (a : α) (f : α → Cmd β) (s : Session) :
    exec (raise (.ok a) >>= f) s = exec (f a) s := rfl

/-- A lookup changes nothing. -/
@[simp] theorem exec_dbGet (key : Bytes) (s : Session) :
    exec (dbGet key) s = (.ok (dictGet s.dict key), s) := rfl

/-- A deletion says whether the key was there. -/
@[simp] theorem exec_dbDel (key : Bytes) (s : Session) :
    exec (dbDel key) s =
      (.ok (dictDel s.dict key).2, { s with dict := (dictDel s.dict key).1 }) := rfl

/-- An update of the object under a key replies nothing. -/
@[simp] theorem exec_dbModify (key : Bytes) (f : Obj → Obj) (s : Session) :
    exec (dbModify key f) s = (.ok (), { s with dict := dictModify s.dict key f }) := rfl

/-! ### Accesses to a key on which the databases agree -/

/-- Databases that agree on the key have the same object there. -/
theorem agrees_dbGet (now : Int64) (key : Bytes) :
    Agrees (SyncAt now key) closing (dbGet key) :=
  Sim.gets fun _ _ hst => hst.dict.same.symm

/-- The key is gone from both, and was in both or in neither. -/
theorem agrees_dbDel (now : Int64) (key : Bytes) :
    Agrees (SyncAt now key) closing (dbDel key) :=
  Sim.modifyGet fun _ _ hst => ⟨hst.dict.del.2, hst.update hst.dict.del.1⟩

/-- The same update makes the same object. -/
theorem agrees_dbModify (now : Int64) (key : Bytes) (f : Obj → Obj) :
    Agrees (SyncAt now key) closing (dbModify key f) :=
  Sim.modify fun _ _ hst => hst.update (hst.dict.modify f)

/-- Setting a key makes the databases agree on it. -/
theorem sim_dbSet (now : Int64) (key : Bytes) (obj : Obj) :
    Sim (Over (Sync now) closing) (dbSet key obj) (dbSet key obj) (Over (SyncAt now key) closing) :=
  Sim.modify fun _ _ hst => hst.update (hst.dict.set key obj)

/-- What is stored is the same in both. -/
theorem agrees_dbSet (now : Int64) (key : Bytes) (obj : Obj) :
    Agrees (SyncAt now key) closing (dbSet key obj) :=
  (sim_dbSet now key obj).weaken (fun _ _ hst => hst.weaken fun _ _ h => h.toSync) fun _ _ h => h

/-- `check_expiry` makes the databases agree on the key. -/
theorem sim_dbCheckExpiry (now : Int64) (key : Bytes) :
    Sim (Over (Sync now) closing) (dbCheckExpiry now key) (dbCheckExpiry now key)
      (Over (SyncAt now key) closing) :=
  Sim.modify fun _ _ hst => hst.update (hst.dict.check key)

/-- **The lazy handler.** After `check_expiry` the two runs go the same way. -/
theorem sim_withKey {missing : Cmd α} {found : Obj → Cmd α}
    (hmissing : Agrees (SyncAt now key) closing missing)
    (hfound : ∀ obj, Agrees (SyncAt now key) closing (found obj)) :
    Sim (Over (Sync now) closing) (withKey now key missing found) (withKey now key missing found)
      (Over (SyncAt now key) closing) := by
  refine (sim_dbCheckExpiry now key).bind (fun _ => ?_) fun _ _ h => h
  refine agrees_bind (agrees_dbGet now key) fun r => ?_
  cases r with
  | none => exact hmissing
  | some obj => exact hfound obj

/-- A command that agrees whatever expired keys one database has lost. -/
abbrev Lazy (now : Int64) (closing : Bool) (m : Cmd α) : Prop := Agrees (Sync now) closing m

/-- From a command that ends with the databases agreeing on a key. -/
theorem Lazy.of_sim {m : Cmd α}
    (h : Sim (Over (Sync now) closing) m m (Over (SyncAt now key) closing)) : Lazy now closing m :=
  h.weaken (fun _ _ h => h) fun _ _ hst => hst.weaken fun _ _ h => h.toSync

/-- **A handler that checks the deadline of its key first** is lazy if what it does then agrees on
databases that have the same under the key. -/
theorem Lazy.withKey {missing : Cmd α} {found : Obj → Cmd α}
    (hmissing : Agrees (SyncAt now key) closing missing)
    (hfound : ∀ obj, Agrees (SyncAt now key) closing (found obj)) :
    Lazy now closing (withKey now key missing found) :=
  Lazy.of_sim (sim_withKey hmissing hfound)

/-- A container that exists or is made, and then only its key. -/
theorem Lazy.container (fresh : α) (wrap : α → Value) (content : Value → Option α)
    (key : Bytes) {f : Option α → Cmd Unit}
    (hf : ∀ r, Agrees (SyncAt now key) closing (f r)) :
    Lazy now closing (getOrCreate fresh wrap content now key >>= f) := by
  have hmake : Sim (Over (Sync now) closing) (getOrCreate fresh wrap content now key)
      (getOrCreate fresh wrap content now key) (Over (SyncAt now key) closing) :=
    sim_withKey (agrees_bind (agrees_dbSet _ _ _) fun _ => Sim.pure _) fun _ => Sim.pure _
  exact Lazy.of_sim (hmake.bind hf fun _ _ h => h)

/-! ### The handlers -/

section Handlers

variable (args : List Bytes)

/-- `SET` does not look at what it replaces. -/
theorem lazy_cmdSet : Lazy now closing (cmdSet args) :=
  agrees_needArgs <| Lazy.of_sim <|
    (sim_dbSet now _ _).bind (fun _ => agrees_emit _) fun _ _ h => h

/-- `GET` checks the deadline and then reads. -/
theorem lazy_cmdGet : Lazy now closing (cmdGet now args) := by
  refine agrees_needArgs (Lazy.withKey (agrees_emit _) fun obj => ?_)
  cases obj.value with
  | str s => exact agrees_emit _
  | _ => exact agrees_emit _

/-- `EXISTS` checks the deadline of each key before it counts it. -/
theorem lazy_cmdExists : Lazy now closing (cmdExists now args) := by
  refine agrees_needArgs (agrees_bind ?_ fun _ => agrees_emit _)
  refine Sim.foldlM _ (fun count key _ => ?_) 0
  exact Lazy.withKey (Sim.pure count) fun _ => Sim.pure (count + 1)

/-- `TYPE` checks the deadline and then names the type. -/
theorem lazy_cmdType : Lazy now closing (cmdType now args) := by
  refine agrees_needArgs (Lazy.withKey (agrees_emit _) fun obj => ?_)
  cases obj.value with
  | _ => exact agrees_emit _

/-- `SETNX` checks the deadline, so an expired key is not in its way. -/
theorem lazy_cmdSetnx : Lazy now closing (cmdSetnx now args) :=
  agrees_needArgs <| Lazy.withKey
    (agrees_bind (agrees_dbSet _ _ _) fun _ => agrees_emit _) fun _ => agrees_emit _

/-- `APPEND` checks the deadline and then appends to the text or makes it. -/
theorem lazy_cmdAppend : Lazy now closing (cmdAppend now args) := by
  refine agrees_needArgs (Lazy.withKey ?_ fun obj => ?_)
  · exact agrees_bind (agrees_dbSet _ _ _) fun _ => agrees_emit _
  cases obj.value with
  | str s => exact agrees_bind (agrees_dbModify _ _ _) fun _ => agrees_emit _
  | _ => exact agrees_emit _

/-- `STRLEN` checks the deadline and then measures. -/
theorem lazy_cmdStrlen : Lazy now closing (cmdStrlen now args) := by
  refine agrees_needArgs (Lazy.withKey (agrees_emit _) fun obj => ?_)
  cases obj.value with
  | str s => exact agrees_emit _
  | _ => exact agrees_emit _

/-- The counters check the deadline in `do_incr`, which they all end in. -/
theorem lazy_doIncr (key : Bytes) (delta : Int) : Lazy now closing (doIncr now key delta) := by
  refine Lazy.withKey ?_ fun obj => ?_
  · refine agrees_bind (agrees_raise _) fun val => ?_
    exact agrees_bind (agrees_dbSet _ _ _) fun _ => agrees_emit _
  cases obj.value with
  | str s =>
    -- a text that is no integer is refused, and the sum may overflow
    refine agrees_cond (agrees_emit _) (agrees_bind (agrees_raise _) fun val => ?_)
    exact agrees_bind (agrees_dbModify _ _ _) fun _ => agrees_emit _
  | _ => exact agrees_emit _

/-- `INCRBY` converts its argument first, which asks nothing of the database. -/
theorem lazy_cmdIncrby : Lazy now closing (cmdIncrby now args) :=
  agrees_needArgs <| agrees_bind (agrees_raise _) fun _ => lazy_doIncr _ _

/-- So does `DECRBY`, which also negates it. -/
theorem lazy_cmdDecrby : Lazy now closing (cmdDecrby now args) :=
  agrees_needArgs <| agrees_bind (agrees_raise _) fun _ =>
    agrees_bind (agrees_raise _) fun _ => lazy_doIncr _ _

/-- A push checks the deadline in `get_or_create_list`. -/
theorem lazy_pushWith (push : List Bytes → Bytes → List Bytes) (name : String) :
    Lazy now closing (pushWith push name now args) := by
  refine agrees_needArgs (Lazy.container _ _ _ _ fun r => ?_)
  cases r with
  | none => exact agrees_emit _
  | some l => exact agrees_bind (agrees_dbModify _ _ _) fun _ => agrees_emit _

/-- A pop checks the deadline, and deletes the list when it has become empty. -/
theorem lazy_popWith (pop : List Bytes → List Bytes × Option Bytes) (name : String) :
    Lazy now closing (popWith pop name now args) := by
  refine agrees_needArgs (Lazy.withKey (agrees_emit _) fun obj => ?_)
  cases obj.value with
  | list l =>
    dsimp only
    rcases pop l with ⟨l', _ | val⟩
    · exact agrees_emit _
    · -- an emptied list is deleted with its key
      refine agrees_bind (agrees_dbModify _ _ _) fun _ => ?_
      refine agrees_bind (agrees_emit _) fun _ => agrees_cond ?_ (Sim.pure _)
      exact agrees_bind (agrees_dbDel _ _) fun _ => Sim.pure _
  | _ => exact agrees_emit _

/-- `LLEN` checks the deadline and then counts. -/
theorem lazy_cmdLlen : Lazy now closing (cmdLlen now args) := by
  refine agrees_needArgs (Lazy.withKey (agrees_emit _) fun obj => ?_)
  cases obj.value with
  | list l => exact agrees_emit _
  | _ => exact agrees_emit _

/-- `LRANGE` checks the deadline before it converts its two bounds. -/
theorem lazy_cmdLrange : Lazy now closing (cmdLrange now args) := by
  refine agrees_needArgs (Lazy.withKey (agrees_emit _) fun obj => ?_)
  cases obj.value with
  | list l =>
    refine agrees_bind (agrees_raise _) fun start => agrees_bind (agrees_raise _) fun stop => ?_
    exact agrees_bind (agrees_emit _) fun _ => agrees_forM (fun _ => agrees_emit _) _
  | _ => exact agrees_emit _

/-- `LINDEX` checks the deadline before it converts its index. -/
theorem lazy_cmdLindex : Lazy now closing (cmdLindex now args) := by
  refine agrees_needArgs (Lazy.withKey (agrees_emit _) fun obj => ?_)
  cases obj.value with
  | list l =>
    refine agrees_bind (agrees_raise _) fun index => ?_
    cases listIndex l index with
    | _ => exact agrees_emit _
  | _ => exact agrees_emit _

/-- `HSET` checks the deadline in `get_or_create_hash`. -/
theorem lazy_cmdHset : Lazy now closing (cmdHset now args) := by
  refine agrees_needPairs (Lazy.container _ _ _ _ fun r => ?_)
  cases r with
  | none => exact agrees_emit _
  | some h => exact agrees_bind (agrees_dbModify _ _ _) fun _ => agrees_emit _

/-- `HGET` checks the deadline and then looks the field up. -/
theorem lazy_cmdHget : Lazy now closing (cmdHget now args) := by
  refine agrees_needArgs (Lazy.withKey (agrees_emit _) fun obj => ?_)
  cases obj.value with
  | hash h =>
    dsimp only
    cases htableGet h (arg args 2) with
    | _ => exact agrees_emit _
  | _ => exact agrees_emit _

/-- `HDEL` checks the deadline and then removes its fields. -/
theorem lazy_cmdHdel : Lazy now closing (cmdHdel now args) := by
  refine agrees_needArgs (Lazy.withKey (agrees_emit _) fun obj => ?_)
  cases obj.value with
  | hash h => exact agrees_bind (agrees_dbModify _ _ _) fun _ => agrees_emit _
  | _ => exact agrees_emit _

/-- `HEXISTS` checks the deadline and then looks for the field. -/
theorem lazy_cmdHexists : Lazy now closing (cmdHexists now args) := by
  refine agrees_needArgs (Lazy.withKey (agrees_emit _) fun obj => ?_)
  cases obj.value with
  | hash h => exact agrees_emit _
  | _ => exact agrees_emit _

/-- `HLEN` checks the deadline and then counts. -/
theorem lazy_cmdHlen : Lazy now closing (cmdHlen now args) := by
  refine agrees_needArgs (Lazy.withKey (agrees_emit _) fun obj => ?_)
  cases obj.value with
  | hash h => exact agrees_emit _
  | _ => exact agrees_emit _

/-- `HGETALL`, `HKEYS` and `HVALS` check the deadline and then write one reply after the other. -/
theorem lazy_hlistWith (width : ℕ) {reply : Bytes × Bytes → Cmd Unit} (name : String)
    (hreply : ∀ e, Agrees (SyncAt now (arg args 1)) closing (reply e)) :
    Lazy now closing (hlistWith width reply name now args) := by
  refine agrees_needArgs (Lazy.withKey (agrees_emit _) fun obj => ?_)
  cases obj.value with
  | hash h => exact agrees_bind (agrees_emit _) fun _ => agrees_forM hreply _
  | _ => exact agrees_emit _

variable (libc : Libc)

/-- Both sides flip the same coins. -/
theorem agrees_dbZsetAdd (key : Bytes) (z : ZSet) (member : Bytes) (score : Double) :
    Agrees (SyncAt now key) closing (dbZsetAdd libc key z member score) := by
  refine agrees_bind (Sim.modifyGet fun s t hst => ?_) fun z' => ?_
  · obtain ⟨hdict, hrest, hclosing⟩ := hst
    refine ⟨by rw [hrest], hdict, ?_, hclosing⟩
    rw [hrest]
  · exact agrees_bind (agrees_dbModify _ _ _) fun _ => Sim.pure _

/-- The loop of `ZADD` writes each new set under the key, the same in both databases. -/
theorem agrees_zaddLoop (key : Bytes) (pairs : List Bytes) (z : ZSet) (added : ℕ) :
    Agrees (SyncAt now key) closing (zaddLoop libc key z added pairs) := by
  fun_induction zaddLoop libc key z added pairs with
  | case1 z added score member rest ih =>
    refine agrees_bind (agrees_raise _) fun score => ?_
    exact agrees_bind (agrees_dbZsetAdd libc key z member score) fun z' => ih z'
  | case2 => exact Sim.pure _

/-- `ZADD` checks the deadline in `get_or_create_zset`. -/
theorem lazy_cmdZadd : Lazy now closing (cmdZadd libc now args) := by
  refine agrees_needPairs (Lazy.container _ _ _ _ fun r => ?_)
  cases r with
  | none => exact agrees_emit _
  | some z => exact agrees_bind (agrees_zaddLoop libc _ _ z 0) fun _ => agrees_emit _

/-- `ZSCORE` checks the deadline and then looks the member up. -/
theorem lazy_cmdZscore : Lazy now closing (cmdZscore libc now args) := by
  refine agrees_needArgs (Lazy.withKey (agrees_emit _) fun obj => ?_)
  cases obj.value with
  | zset z =>
    dsimp only
    cases zsetScore libc z (arg args 2) with
    | _ => exact agrees_emit _
  | _ => exact agrees_emit _

/-- `ZRANGE` checks the deadline before it converts its bounds. -/
theorem lazy_cmdZrange : Lazy now closing (cmdZrange libc now args) := by
  refine agrees_needArgs (Lazy.withKey (agrees_emit _) fun obj => ?_)
  cases obj.value with
  | zset z =>
    refine agrees_bind (agrees_raise _) fun start => agrees_bind (agrees_raise _) fun stop => ?_
    refine agrees_bind (agrees_emit _) fun _ => agrees_forM (fun m => ?_) _
    exact agrees_bind (agrees_emit _) fun _ => agrees_cond (agrees_emit _) (Sim.pure _)
  | _ => exact agrees_emit _

/-- `ZRANK` checks the deadline and then walks the chain. -/
theorem lazy_cmdZrank : Lazy now closing (cmdZrank now args) := by
  refine agrees_needArgs (Lazy.withKey (agrees_emit _) fun obj => ?_)
  cases obj.value with
  | zset z => exact agrees_cond (agrees_emit _) (agrees_emit _)
  | _ => exact agrees_emit _

/-- `ZCARD` checks the deadline and then counts. -/
theorem lazy_cmdZcard : Lazy now closing (cmdZcard now args) := by
  refine agrees_needArgs (Lazy.withKey (agrees_emit _) fun obj => ?_)
  cases obj.value with
  | zset z => exact agrees_emit _
  | _ => exact agrees_emit _

/-- `ZREM` checks the deadline and then removes its members. -/
theorem lazy_cmdZrem : Lazy now closing (cmdZrem libc now args) := by
  refine agrees_needArgs (Lazy.withKey (agrees_emit _) fun obj => ?_)
  cases obj.value with
  | zset z => exact agrees_bind (agrees_dbModify _ _ _) fun _ => agrees_emit _
  | _ => exact agrees_emit _

/-! ### TTL -/

/-- Among accesses to its key `TTL` agrees without any condition. -/
theorem agrees_cmdTtl : Agrees (SyncAt now (arg args 1)) closing (cmdTtl now args) := by
  refine agrees_needArgs (agrees_bind (agrees_dbGet _ _) fun r => ?_)
  cases r with
  | none => exact agrees_emit _
  | some obj =>
    refine agrees_cond (agrees_emit _) (agrees_bind (agrees_raise _) fun remaining => ?_)
    refine agrees_cond ?_ ?_
    · exact agrees_bind (agrees_dbDel _ _) fun _ => agrees_emit _
    · exact agrees_bind (agrees_raise _) fun _ => agrees_emit _

variable {args}

/-- `TTL` of a missing key. -/
theorem exec_cmdTtl_missing (hlen : ¬args.length < 2) {s : Session}
    (hget : dictGet s.dict (arg args 1) = none) :
    exec (cmdTtl now args) s = exec (replyInteger (-2)) s := by
  rw [cmdTtl, needArgs, if_neg hlen, exec_bind, exec_dbGet, hget]

/-- `TTL` of an expired key, when the subtraction fits: the key is deleted. -/
theorem exec_cmdTtl_expired (hlen : ¬args.length < 2) {s : Session} {o : Obj}
    (hget : dictGet s.dict (arg args 1) = some o) (ho : o.expired now = true)
    (hfits : LLONG_MIN ≤ o.expireAtMs.toInt - now.toInt) :
    exec (cmdTtl now args) s =
      exec (replyInteger (-2)) { s with dict := (dictDel s.dict (arg args 1)).1 } := by
  obtain ⟨hne, hle⟩ := Obj.expired_iff.mp ho
  have hint : int64 (o.expireAtMs.toInt - now.toInt) = .ok (o.expireAtMs.toInt - now.toInt) := by
    rw [int64, if_pos ⟨hfits, by rw [LLONG_MAX]; omega⟩]
  -- the remaining time is not positive, so `cmd_ttl` takes the branch that deletes
  have hneg : o.expireAtMs.toInt - now.toInt ≤ 0 := by omega
  rw [cmdTtl, needArgs, if_neg hlen, exec_bind, exec_dbGet, hget]
  simp only [if_neg hne, hint, raise]
  rw [exec_bind, exec_pure]
  simp only [if_pos hneg]
  rw [exec_bind, exec_dbDel]

/-- `TTL` of an expired key, when the subtraction overflows. -/
theorem exec_cmdTtl_overflow (hlen : ¬args.length < 2) {s : Session} {o : Obj}
    (hget : dictGet s.dict (arg args 1) = some o) (ho : o.expired now = true)
    (hover : ¬LLONG_MIN ≤ o.expireAtMs.toInt - now.toInt) :
    exec (cmdTtl now args) s = (.error .signedOverflow, s) := by
  obtain ⟨hne, -⟩ := Obj.expired_iff.mp ho
  have hint : int64 (o.expireAtMs.toInt - now.toInt) = .error .signedOverflow := by
    rw [int64, if_neg fun h => hover h.1]
  rw [cmdTtl, needArgs, if_neg hlen, exec_bind, exec_dbGet, hget]
  simp only [if_neg hne, hint, raise]
  rw [exec_bind, exec_throw]

/-- `TTL` cannot tell an expired key from a missing one, when the subtraction fits. -/
theorem sync_cmdTtl {s t : Session} (hst : Over (Sync now) closing s t)
    (hfits : ¬args.length < 2 → ∀ o, dictGet s.dict (arg args 1) = some o →
      LLONG_MIN ≤ o.expireAtMs.toInt - now.toInt) :
    (exec (cmdTtl now args) s).1 = (exec (cmdTtl now args) t).1 ∧
      Over (Sync now) closing (exec (cmdTtl now args) s).2 (exec (cmdTtl now args) t).2 := by
  rcases hst.dict.get (arg args 1) with hsame | ⟨hnone, o, hget, ho⟩
  · -- the two sides have the same under the key
    obtain ⟨hres, hover⟩ := agrees_cmdTtl args s t ⟨⟨hst.dict, hsame⟩, hst.rest, hst.closing_eq⟩
    exact ⟨hres, hover.weaken fun _ _ h => h.toSync⟩
  by_cases hlen : args.length < 2
  · -- too few arguments, and no key is looked at
    have hshort : cmdTtl now args =
        replyError ("wrong number of arguments for '" ++ "ttl" ++ "'") := if_pos hlen
    rw [hshort]
    exact agrees_emit _ s t hst
  · -- one side deletes what the other has lost already
    rw [exec_cmdTtl_expired hlen hget ho (hfits hlen o hget), exec_cmdTtl_missing hlen hnone]
    exact agrees_emit _ _ _ (hst.update (hst.dict.del_left hnone))

end Handlers

/-! ### All lazy commands -/

/-- The commands that do not look at what a key had before they check its deadline. -/
def Command.isLazy : Command → Bool
  | .SET | .GET | .EXISTS | .TYPE | .TTL => true
  | .SETNX | .APPEND | .STRLEN | .INCR | .INCRBY | .DECR | .DECRBY => true
  | .LPUSH | .RPUSH | .LPOP | .RPOP | .LLEN | .LRANGE | .LINDEX => true
  | .HSET | .HGET | .HDEL | .HEXISTS | .HLEN | .HGETALL | .HKEYS | .HVALS => true
  | .ZADD | .ZSCORE | .ZRANGE | .ZRANK | .ZCARD | .ZREM => true
  | _ => false

/-- A `TTL` does not overflow: the deadline of its key is not more than `2 ^ 63` ms ago. -/
def Command.NoOverflow (now : Int64) (d : Dict Obj) (c : Command) (args : List Bytes) : Prop :=
  c = .TTL → ¬args.length < 2 → ∀ o, dictGet d (arg args 1) = some o →
    LLONG_MIN ≤ o.expireAtMs.toInt - now.toInt

variable (libc : Libc)

/-- Every lazy handler but that of `TTL`. -/
theorem lazy_handler {c : Command} (hc : c.isLazy = true) (httl : c ≠ .TTL) (args : List Bytes) :
    Lazy now closing (c.handler libc now args) := by
  cases c with
  | SET => exact lazy_cmdSet args
  | GET => exact lazy_cmdGet args
  | EXISTS => exact lazy_cmdExists args
  | TYPE => exact lazy_cmdType args
  | TTL => exact absurd rfl httl
  | SETNX => exact lazy_cmdSetnx args
  | APPEND => exact lazy_cmdAppend args
  | STRLEN => exact lazy_cmdStrlen args
  -- the four counters differ in what they add
  | INCR => exact agrees_needArgs (lazy_doIncr _ 1)
  | INCRBY => exact lazy_cmdIncrby args
  | DECR => exact agrees_needArgs (lazy_doIncr _ (-1))
  | DECRBY => exact lazy_cmdDecrby args
  | LPUSH => exact lazy_pushWith args listLpush "lpush"
  | RPUSH => exact lazy_pushWith args listRpush "rpush"
  | LPOP => exact lazy_popWith args listLpop "lpop"
  | RPOP => exact lazy_popWith args listRpop "rpop"
  | LLEN => exact lazy_cmdLlen args
  | LRANGE => exact lazy_cmdLrange args
  | LINDEX => exact lazy_cmdLindex args
  | HSET => exact lazy_cmdHset args
  | HGET => exact lazy_cmdHget args
  | HDEL => exact lazy_cmdHdel args
  | HEXISTS => exact lazy_cmdHexists args
  | HLEN => exact lazy_cmdHlen args
  | HGETALL =>
    exact lazy_hlistWith args 2 "hgetall" fun e =>
      agrees_bind (agrees_emit _) fun _ => agrees_emit _
  | HKEYS => exact lazy_hlistWith args 1 "hkeys" fun _ => agrees_emit _
  | HVALS => exact lazy_hlistWith args 1 "hvals" fun _ => agrees_emit _
  | ZADD => exact lazy_cmdZadd args libc
  | ZSCORE => exact lazy_cmdZscore args libc
  | ZRANGE => exact lazy_cmdZrange args libc
  | ZRANK => exact lazy_cmdZrank args
  | ZCARD => exact lazy_cmdZcard args
  | ZREM => exact lazy_cmdZrem args libc
  | _ => exact absurd hc (by decide)

/-- **Lazy commands** answer alike on databases that look the same, and leave such. -/
theorem sync_handler {c : Command} (hc : c.isLazy = true) {args : List Bytes} {s t : Session}
    (hst : Over (Sync now) closing s t) (hfits : c.NoOverflow now s.dict args) :
    (exec (c.handler libc now args) s).1 = (exec (c.handler libc now args) t).1 ∧
      Over (Sync now) closing (exec (c.handler libc now args) s).2
        (exec (c.handler libc now args) t).2 := by
  by_cases httl : c = .TTL
  · subst httl
    exact sync_cmdTtl hst (hfits rfl)
  · exact lazy_handler libc hc httl args s t hst

/-! ### What every handler keeps -/

/-- The table is well formed, and `closing` is as given. -/
structure Session.Sound (closing : Bool) (s : Session) : Prop where
  wf : s.dict.WF
  closing_eq : s.closing = closing

/-- A sound session is over itself. -/
theorem Session.Sound.over {s : Session} (h : s.Sound closing) : Over (Sync now) closing s s :=
  ⟨Sync.refl now h.wf, rfl, h.closing_eq⟩

/-- What is lazy keeps a session sound: it is compared with itself. -/
theorem keeps_of_lazy {m : Cmd α} (h : Lazy now closing m) : Keeps (Session.Sound closing) m :=
  fun _ hs => ⟨(h.invariant hs.over).dict.left, (h.invariant hs.over).closing_eq⟩

/-- A conversion changes no session. -/
theorem keeps_raise {P : Session → Prop} (r : Except Fault α) : Keeps P (raise r) := by
  cases r with
  | ok a => exact Keeps.pure a
  | error e => exact Keeps.throw e

/-- A reply leaves the database alone. -/
theorem keeps_emit (data : Bytes) : Keeps (Session.Sound closing) (emit data) :=
  Keeps.modify fun _ hs => ⟨hs.wf, hs.closing_eq⟩

/-- So does a lookup. -/
theorem keeps_dbGet (key : Bytes) : Keeps (Session.Sound closing) (dbGet key) :=
  Keeps.get.bind fun _ => Keeps.pure _

/-- A deletion keeps the table well formed. -/
theorem keeps_dbDel (key : Bytes) : Keeps (Session.Sound closing) (dbDel key) :=
  Keeps.modifyGet fun _ hs => ⟨wf_dictDel hs.wf key, hs.closing_eq⟩

/-- So does an update. -/
theorem keeps_dbModify (key : Bytes) (f : Obj → Obj) :
    Keeps (Session.Sound closing) (dbModify key f) :=
  Keeps.modify fun _ hs => ⟨wf_dictModify hs.wf key f, hs.closing_eq⟩

/-- `DEL` deletes one key after the other. -/
theorem keeps_cmdDel (args : List Bytes) : Keeps (Session.Sound closing) (cmdDel args) := by
  refine Keeps.cond (keeps_emit _) ((Keeps.foldlM (fun count key => ?_) _ _).bind fun _ =>
    keeps_emit _)
  exact (keeps_dbDel key).bind fun _ => Keeps.cond (Keeps.pure _) (Keeps.pure _)

/-- `EXPIRE` updates the deadline of its key, if the conversion and the sum succeed. -/
theorem keeps_cmdExpire (args : List Bytes) :
    Keeps (Session.Sound closing) (cmdExpire now args) := by
  refine Keeps.cond (keeps_emit _) ((keeps_dbGet _).bind fun r => ?_)
  cases r with
  | none => exact keeps_emit _
  | some o =>
    refine (keeps_raise _).bind fun secs => (keeps_raise _).bind fun ms => ?_
    refine (keeps_raise _).bind fun expireAt => ?_
    exact (keeps_dbModify _ _).bind fun _ => keeps_emit _

/-- `TTL` deletes a key whose deadline has passed, and otherwise only reads. -/
theorem keeps_cmdTtl (args : List Bytes) : Keeps (Session.Sound closing) (cmdTtl now args) := by
  refine Keeps.cond (keeps_emit _) ((keeps_dbGet _).bind fun r => ?_)
  cases r with
  | none => exact keeps_emit _
  | some o =>
    refine Keeps.cond (keeps_emit _) ((keeps_raise _).bind fun remaining => ?_)
    refine Keeps.cond ?_ ?_
    · exact (keeps_dbDel _).bind fun _ => keeps_emit _
    · exact (keeps_raise _).bind fun _ => keeps_emit _

/-- `PERSIST` updates the deadline of a key that has one. -/
theorem keeps_cmdPersist (args : List Bytes) :
    Keeps (Session.Sound closing) (cmdPersist args) := by
  refine Keeps.cond (keeps_emit _) ((keeps_dbGet _).bind fun r => ?_)
  cases r with
  | none => exact keeps_emit _
  | some o =>
    exact Keeps.cond (keeps_emit _) ((keeps_dbModify _ _).bind fun _ => keeps_emit _)

/-- `FLUSHDB` leaves a new table, which is well formed. -/
theorem keeps_cmdFlushdb (args : List Bytes) : Keeps (Session.Sound closing) (cmdFlushdb args) :=
  (Keeps.modify fun _ hs => ⟨wf_dictNew, hs.closing_eq⟩).bind fun _ => keeps_emit _

/-- `KEYS` only reads. -/
theorem keeps_cmdKeys (args : List Bytes) : Keeps (Session.Sound closing) (cmdKeys args) :=
  Keeps.cond (keeps_emit _) <| Keeps.get.bind fun _ =>
    (keeps_emit _).bind fun _ => Keeps.forM (fun _ => keeps_emit _) _

/-- `SAVE` changes the file system, not the database. -/
theorem keeps_cmdSave (args : List Bytes) : Keeps (Session.Sound closing) (cmdSave args) :=
  (Keeps.modifyGet fun _ hs => ⟨hs.wf, hs.closing_eq⟩).bind fun _ =>
    Keeps.cond (keeps_emit _) (keeps_emit _)

/-- So does `BGSAVE`, which also has one child more. -/
theorem keeps_cmdBgsave (args : List Bytes) : Keeps (Session.Sound closing) (cmdBgsave args) := by
  refine Keeps.get.bind fun s => Keeps.cond ?_ (keeps_emit _)
  exact (Keeps.modify fun _ hs => ⟨hs.wf, hs.closing_eq⟩).bind fun _ => keeps_emit _

/-- **Every handler** but that of `QUIT` keeps the table well formed and the client open. -/
theorem keeps_handler (now : Int64) {c : Command} (hc : c ≠ .QUIT) (args : List Bytes) :
    Keeps (Session.Sound closing) (c.handler libc now args) := by
  by_cases hlazy : c.isLazy = true ∧ c ≠ .TTL
  · -- a handler that agrees with itself on a sound session keeps it sound
    exact keeps_of_lazy (lazy_handler libc hlazy.1 hlazy.2 args)
  · -- the others write their table themselves, if at all
    cases c with
    | PING => exact Keeps.cond (keeps_emit _) (keeps_emit _)
    | ECHO => exact Keeps.cond (keeps_emit _) (keeps_emit _)
    | DEL => exact keeps_cmdDel args
    | DBSIZE => exact Keeps.get.bind fun _ => keeps_emit _
    | QUIT => exact absurd rfl hc
    | EXPIRE => exact keeps_cmdExpire args
    | TTL => exact keeps_cmdTtl args
    | PERSIST => exact keeps_cmdPersist args
    | FLUSHDB => exact keeps_cmdFlushdb args
    | SELECT => exact keeps_emit _
    | KEYS => exact keeps_cmdKeys args
    | SAVE => exact keeps_cmdSave args
    | BGSAVE => exact keeps_cmdBgsave args
    | _ => exact absurd ⟨rfl, by decide⟩ hlazy

/-- `QUIT` does not touch the database either. -/
theorem wf_handler (now : Int64) (c : Command) (args : List Bytes) {s : Session}
    (hs : s.dict.WF) : (exec (c.handler libc now args) s).2.dict.WF := by
  by_cases hc : c = .QUIT
  · subst hc
    exact hs
  · exact (keeps_handler libc now hc args s ⟨hs, rfl⟩).wf

/-- **`dispatch_command`** keeps the table well formed. -/
theorem wf_dispatchCommand (now : Int64) (args : List Bytes) {s : Session} (hs : s.dict.WF) :
    (exec (dispatchCommand libc now args) s).2.dict.WF := by
  cases args with
  | nil => exact hs
  | cons name args =>
    rw [dispatchCommand]
    cases findCommand name with
    | some c => exact wf_handler libc now c _ hs
    | none => exact hs

end Minired
