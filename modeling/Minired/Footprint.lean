import Minired.Reachable
import Minired.Lib.Triple

/-!
# The footprint of a handler

What the handlers do to the table is little: they check the deadline of a key, they look it up,
set it, delete it, and write through the pointer to its object. `KeepsDict p m` says that the
program `m` keeps the property `p` of databases, and this module proves it of every handler
from what `p` survives:

* `Command.isRead` lists the commands that never write. They only check the deadlines of their
  keys, so they keep whatever the check keeps (`keeps_read`).
* `Command.isText` lists those that write strings and deadlines, or delete (`keeps_text`).
* The others write containers, made from the containers they read. A class `G` of values that these
  operations do not leave is a `ValueClass`, and `Footprint now key G p` says that `p` survives
  the accesses to `key` with values of `G`. Under these two, the handlers of one key keep `p`
  (`keeps_footprint`).

With all values as `G` this gives the frame law, and with the well formed ones the invariant of
the values that are stored.
-/

namespace Minired

open Relational

/-- The program keeps a property of the database. -/
abbrev KeepsDict (p : Dict Obj → Prop) {α : Type} (m : Cmd α) : Prop :=
  Keeps (fun s : Session => p s.dict) m

variable {p : Dict Obj → Prop} {now : Int64} {key : Bytes} {α β : Type}

/-! ### Programs that do not touch the table -/

/-- A reply does not touch the database. -/
theorem keepsDict_emit (data : Bytes) : KeepsDict p (emit data) := Keeps.modify fun _ hs => hs

/-- Nor does a lookup. -/
theorem keepsDict_dbGet (key : Bytes) : KeepsDict p (dbGet key) :=
  Keeps.get.bind fun _ => Keeps.pure _

/-- Nor does the check of the number of arguments. -/
theorem keepsDict_needArgs {n : ℕ} {name : String} {args : List Bytes} {body : Cmd Unit}
    (h : KeepsDict p body) : KeepsDict p (needArgs n name args body) :=
  Keeps.cond (keepsDict_emit _) h

/-- An array of replies. -/
theorem keepsDict_array {n : ℕ} {f : β → Cmd Unit} (hf : ∀ b, KeepsDict p (f b)) (bs : List β) :
    KeepsDict p (do replyArrayHeader n; bs.forM f) :=
  (keepsDict_emit _).bind fun _ => Keeps.forM hf bs

/-- Behind `check_expiry` and `dict_get`, both cases keep the property. -/
theorem keepsDict_withKey {missing : Cmd α} {found : Obj → Cmd α}
    (hcheck : ∀ d, p d → p (checkExpiry now d key).1) (hmissing : KeepsDict p missing)
    (hfound : ∀ obj, KeepsDict p (found obj)) :
    KeepsDict p (withKey now key missing found) := by
  refine Keeps.bind (Keeps.modify fun s hs => hcheck s.dict hs) fun _ => ?_
  refine (keepsDict_dbGet key).bind fun r => ?_
  cases r with
  | none => exact hmissing
  | some obj => exact hfound obj

/-- What follows a look at a key may be moved into its cases. -/
theorem withKey_bind (missing : Cmd α) (found : Obj → Cmd α) (f : α → Cmd β) :
    withKey now key missing found >>= f =
      withKey now key (missing >>= f) fun obj => found obj >>= f := by
  simp only [withKey, bind_assoc]
  congr
  funext _
  congr
  funext r
  cases r with
  | none => rfl
  | some obj => rfl

/-- A container is made, or it is what the key has. -/
theorem getOrCreate_bind {γ : Type} (fresh : γ) (wrap : γ → Value) (content : Value → Option γ)
    (f : Option γ → Cmd α) :
    getOrCreate fresh wrap content now key >>= f =
      withKey now key (dbSet key (newObj (wrap fresh)) >>= fun _ => f (some fresh))
        fun obj => f (content obj.value) := by
  rw [getOrCreate, withKey_bind, bind_assoc]
  simp only [pure_bind]

/-- The addition to a sorted set, and the write of the result under its key. -/
theorem run_dbZsetAdd (libc : Libc) (key : Bytes) (z : ZSet) (member : Bytes) (score : Double)
    (s : Session) :
    exec (dbZsetAdd libc key z member score) s =
      (.ok (zsetAdd libc z member score s.coins).1,
        { s with
          dict := dictModify s.dict key
            (Obj.setValue (.zset (zsetAdd libc z member score s.coins).1))
          coins := (zsetAdd libc z member score s.coins).2 }) := rfl

/-! ### Commands that only read -/

/-- The commands whose handlers write no key. `KEYS`, `DBSIZE`, `SAVE` and `BGSAVE` look at the
whole table; the others check the deadlines of their keys. -/
def Command.isRead : Command → Bool
  | .PING | .ECHO | .DBSIZE | .QUIT | .SELECT | .KEYS | .SAVE | .BGSAVE => true
  | .GET | .EXISTS | .TYPE | .STRLEN => true
  | .LLEN | .LRANGE | .LINDEX => true
  | .HGET | .HEXISTS | .HLEN | .HGETALL | .HKEYS | .HVALS => true
  | .ZSCORE | .ZRANGE | .ZRANK | .ZCARD => true
  | _ => false

variable {args : List Bytes}

/-- The key of a command with a single one is among the arguments, when there are two. -/
theorem arg_mem_take (hlen : 2 ≤ args.length) : arg args 1 ∈ args.tail.take 1 := by
  rcases args with _ | ⟨name, _ | ⟨key, args⟩⟩
  · exact absurd hlen (by simp)
  · exact absurd hlen (by simp)
  · exact List.mem_singleton.mpr rfl

/-- A handler that needs its key among the arguments. -/
theorem keepsDict_needKey {n : ℕ} {name : String} {body : Cmd Unit} (hn : 2 ≤ n)
    (h : arg args 1 ∈ args.tail.take 1 → KeepsDict p body) :
    KeepsDict p (needArgs n name args body) := by
  rw [needArgs]
  split
  case isTrue => exact keepsDict_emit _
  case isFalse hlen => exact h (arg_mem_take (hn.trans (not_lt.mp hlen)))

/-- The same for a handler of pairs. -/
theorem keepsDict_needPairsKey {name : String} {body : Cmd Unit}
    (h : arg args 1 ∈ args.tail.take 1 → KeepsDict p body) :
    KeepsDict p (needPairs name args body) := by
  rw [needPairs]
  split
  case isTrue => exact keepsDict_emit _
  case isFalse hlen =>
    push Not at hlen
    exact h (arg_mem_take ((by decide : 2 ≤ 4).trans hlen.1))

section Read

/-- A handler that checks its key and then replies. -/
theorem keepsDict_oneRead {n : ℕ} {name : String} {missing : Cmd Unit} {found : Obj → Cmd Unit}
    (hcheck : ∀ k ∈ args.tail.take 1, ∀ d, p d → p (checkExpiry now d k).1) (hn : 2 ≤ n)
    (hmissing : KeepsDict p missing) (hfound : ∀ obj, KeepsDict p (found obj)) :
    KeepsDict p (needArgs n name args (withKey now (arg args 1) missing found)) :=
  keepsDict_needKey hn fun hkey => keepsDict_withKey (hcheck _ hkey) hmissing hfound

/-- `EXISTS` checks the deadlines of its keys, and nothing else touches the database. -/
theorem keepsDict_cmdExists
    (hcheck : ∀ k ∈ args.tail, ∀ d, p d → p (checkExpiry now d k).1) :
    KeepsDict p (cmdExists now args) := by
  refine keepsDict_needArgs (Keeps.bind ?_ fun _ => keepsDict_emit _)
  refine Keeps.foldlM_mem args.tail (fun count key hkey => ?_) 0
  exact keepsDict_withKey (hcheck key hkey) (Keeps.pure _) fun _ => Keeps.pure _

/-- `SAVE` only reads the database. -/
theorem keepsDict_cmdSave (args : List Bytes) : KeepsDict p (cmdSave args) :=
  (Keeps.modifyGet fun _ hs => hs).bind fun _ => Keeps.cond (keepsDict_emit _) (keepsDict_emit _)

/-- So does `BGSAVE`. -/
theorem keepsDict_cmdBgsave (args : List Bytes) : KeepsDict p (cmdBgsave args) := by
  refine Keeps.get.bind fun s => Keeps.cond ?_ (keepsDict_emit _)
  exact Keeps.bind (Keeps.modify fun _ hs => hs) fun _ => keepsDict_emit _

/-- **Reading** keeps what the check of the keys keeps. -/
theorem keeps_read (libc : Libc) {c : Command} (hc : c.isRead = true)
    (hcheck : ∀ k ∈ c.keys args, ∀ d, p d → p (checkExpiry now d k).1) :
    KeepsDict p (c.handler libc now args) := by
  cases c with
  -- the commands without a key
  | PING => exact Keeps.cond (keepsDict_emit _) (keepsDict_emit _)
  | ECHO => exact keepsDict_needArgs (keepsDict_emit _)
  | DBSIZE => exact Keeps.get.bind fun _ => keepsDict_emit _
  | QUIT => exact (keepsDict_emit _).bind fun _ => Keeps.modify fun _ hs => hs
  | SELECT => exact keepsDict_emit _
  | KEYS =>
    exact keepsDict_needArgs (Keeps.get.bind fun _ => keepsDict_array (fun _ => keepsDict_emit _) _)
  | SAVE => exact keepsDict_cmdSave args
  | BGSAVE => exact keepsDict_cmdBgsave args
  | EXISTS => exact keepsDict_cmdExists hcheck
  -- one reply, whatever the value is
  | GET | TYPE | STRLEN | LLEN | HLEN | ZCARD =>
    refine keepsDict_oneRead hcheck le_rfl (keepsDict_emit _) fun obj => ?_
    cases obj.value with
    | _ => exact keepsDict_emit _
  | LRANGE =>
    refine keepsDict_oneRead hcheck (by decide) (keepsDict_emit _) fun obj => ?_
    cases obj.value with
    | list l =>
      refine (keeps_raise _).bind fun start => (keeps_raise _).bind fun stop => ?_
      exact keepsDict_array (fun _ => keepsDict_emit _) _
    | _ => exact keepsDict_emit _
  | LINDEX =>
    refine keepsDict_oneRead hcheck (by decide) (keepsDict_emit _) fun obj => ?_
    cases obj.value with
    | list l =>
      refine (keeps_raise _).bind fun index => ?_
      cases listIndex l index with
      | _ => exact keepsDict_emit _
    | _ => exact keepsDict_emit _
  | HGET =>
    refine keepsDict_oneRead hcheck (by decide) (keepsDict_emit _) fun obj => ?_
    cases obj.value with
    | hash h =>
      dsimp only
      cases htableGet h (arg args 2) with
      | _ => exact keepsDict_emit _
    | _ => exact keepsDict_emit _
  | HEXISTS =>
    refine keepsDict_oneRead hcheck (by decide) (keepsDict_emit _) fun obj => ?_
    cases obj.value with
    | _ => exact keepsDict_emit _
  | HGETALL =>
    refine keepsDict_oneRead hcheck le_rfl (keepsDict_emit _) fun obj => ?_
    cases obj.value with
    | hash h =>
      exact keepsDict_array (fun _ => (keepsDict_emit _).bind fun _ => keepsDict_emit _) _
    | _ => exact keepsDict_emit _
  | HKEYS | HVALS =>
    refine keepsDict_oneRead hcheck le_rfl (keepsDict_emit _) fun obj => ?_
    cases obj.value with
    | hash h => exact keepsDict_array (fun _ => keepsDict_emit _) _
    | _ => exact keepsDict_emit _
  | ZSCORE =>
    refine keepsDict_oneRead hcheck (by decide) (keepsDict_emit _) fun obj => ?_
    cases obj.value with
    | zset z =>
      dsimp only
      cases zsetScore libc z (arg args 2) with
      | _ => exact keepsDict_emit _
    | _ => exact keepsDict_emit _
  | ZRANGE =>
    refine keepsDict_oneRead hcheck (by decide) (keepsDict_emit _) fun obj => ?_
    cases obj.value with
    | zset z =>
      refine (keeps_raise _).bind fun start => (keeps_raise _).bind fun stop => ?_
      refine keepsDict_array (fun m => (keepsDict_emit _).bind fun _ => ?_) _
      exact Keeps.cond (keepsDict_emit _) (Keeps.pure _)
    | _ => exact keepsDict_emit _
  | ZRANK =>
    refine keepsDict_oneRead hcheck (by decide) (keepsDict_emit _) fun obj => ?_
    cases obj.value with
    | zset z => exact Keeps.cond (keepsDict_emit _) (keepsDict_emit _)
    | _ => exact keepsDict_emit _
  | _ => exact absurd hc (by decide)

end Read

/-! ### Commands that write -/

variable (libc : Libc)

/-- A class of values that the operations on values do not leave. -/
structure ValueClass (G : Value → Prop) : Prop where
  str : ∀ s, G (.str s)
  list : ∀ l, G (.list l)
  hashNew : G (.hash dictNew)
  hashSet : ∀ h field value, G (.hash h) → G (.hash (htableSet h field value))
  hashDel : ∀ h field, G (.hash h) → G (.hash (htableDel h field).1)
  zsetNew : G (.zset zsetNew)
  zsetAdd : ∀ z member score coins, G (.zset z) → G (.zset (zsetAdd libc z member score coins).1)
  zsetRem : ∀ z member, G (.zset z) → G (.zset (zsetRem libc z member).1)

/-- The property survives the accesses to the key, with values of the class. -/
structure Footprint (now : Int64) (key : Bytes) (G : Value → Prop) (p : Dict Obj → Prop) :
    Prop where
  check : ∀ d, p d → p (checkExpiry now d key).1
  get : ∀ d o, p d → dictGet d key = some o → G o.value
  set : ∀ d v, G v → p d → p (dictSet d key (newObj v))
  del : ∀ d, p d → p (dictDel d key).1
  write : ∀ d v, G v → p d → p (dictModify d key (Obj.setValue v))
  deadline : ∀ d t, p d → p (dictModify d key fun o => { o with expireAtMs := t })

variable {libc} {G : Value → Prop}

/-! #### Loops over values -/

/-- Pairs set into a hash of the class leave it in the class. -/
theorem ValueClass.hsetLoop (hG : ValueClass libc G) (h : Dict Bytes) (count : ℕ)
    (pairs : List Bytes) (hh : G (.hash h)) : G (.hash (hsetLoop h count pairs).1) := by
  fun_induction Minired.hsetLoop h count pairs with
  | case1 h count field value rest isnew ih => exact ih (hG.hashSet h field value hh)
  | case2 => exact hh

/-- So do fields that are removed. -/
theorem ValueClass.hdel (hG : ValueClass libc G) (fields : List Bytes) (acc : Dict Bytes × ℕ)
    (hh : G (.hash acc.1)) : G (.hash (fields.foldl hdelCount acc).1) := by
  induction fields generalizing acc with
  | nil => exact hh
  | cons field fields ih => exact ih _ (hG.hashDel acc.1 field hh)

/-- So do members removed from a sorted set. -/
theorem ValueClass.zrem (hG : ValueClass libc G) (members : List Bytes) (acc : ZSet × ℕ)
    (hz : G (.zset acc.1)) : G (.zset (members.foldl (zremCount libc) acc).1) := by
  induction members generalizing acc with
  | nil => exact hz
  | cons member members ih => exact ih _ (hG.zsetRem acc.1 member hz)

/-! #### Programs on one key -/

section OneKey

variable (hp : Footprint now key G p)

include hp

/-- Storing a value of the class under the key is within the footprint. -/
theorem keepsDict_dbSet {v : Value} (hv : G v) : KeepsDict p (dbSet key (newObj v)) :=
  Keeps.modify fun s hs => hp.set s.dict v hv hs

/-- So is deleting the key. -/
theorem keepsDict_dbDel : KeepsDict p (dbDel key) := Keeps.modifyGet fun s hs => hp.del s.dict hs

/-- So is another value of the class in its object. -/
theorem keepsDict_dbWrite {v : Value} (hv : G v) :
    KeepsDict p (dbModify key (Obj.setValue v)) :=
  Keeps.modify fun s hs => hp.write s.dict v hv hs

/-- So is another deadline. -/
theorem keepsDict_dbDeadline (t : Int64) :
    KeepsDict p (dbModify key fun o => { o with expireAtMs := t }) :=
  Keeps.modify fun s hs => hp.deadline s.dict t hs

/-- What is found under the key is in the class. -/
theorem keepsDict_found {missing : Cmd α} {found : Obj → Cmd α} (hmissing : KeepsDict p missing)
    (hfound : ∀ obj, G obj.value → KeepsDict p (found obj)) :
    KeepsDict p (withKey now key missing found) := by
  refine Keeps.bind (Keeps.modify fun s hs => hp.check s.dict hs) fun _ => ?_
  intro s hs
  rw [exec_bind, exec_dbGet]
  dsimp only
  cases hget : dictGet s.dict key with
  | none => exact hmissing s hs
  | some obj => exact hfound obj (hp.get s.dict obj hs hget) s hs

/-- A container that exists or is made. -/
theorem keepsDict_container {γ : Type} {fresh : γ} {wrap : γ → Value} {content : Value → Option γ}
    (hfresh : G (wrap fresh)) (hcontent : ∀ v a, content v = some a → v = wrap a)
    {f : Option γ → Cmd Unit} (hnone : KeepsDict p (f none))
    (hsome : ∀ a, G (wrap a) → KeepsDict p (f (some a))) :
    KeepsDict p (getOrCreate fresh wrap content now key >>= f) := by
  rw [getOrCreate_bind]
  refine keepsDict_found hp ?_ fun obj hobj => ?_
  · exact (keepsDict_dbSet hp hfresh).bind fun _ => hsome fresh hfresh
  · cases hvalue : content obj.value with
    | none => exact hnone
    | some a => exact hsome a (hcontent _ _ hvalue ▸ hobj)

end OneKey

/-! #### The handlers -/

/-- `EXPIRE` writes the deadline of its key. -/
theorem keepsDict_cmdExpire (hp : ∀ k ∈ args.tail.take 1, Footprint now k G p) :
    KeepsDict p (cmdExpire now args) := by
  refine keepsDict_needKey (by decide) fun hkey => (keepsDict_dbGet _).bind fun r => ?_
  have hp := hp _ hkey
  cases r with
  | none => exact keepsDict_emit _
  | some o =>
    refine (keeps_raise _).bind fun secs => (keeps_raise _).bind fun ms => ?_
    refine (keeps_raise _).bind fun expireAt => ?_
    exact (keepsDict_dbDeadline hp _).bind fun _ => keepsDict_emit _

/-- `TTL` deletes its key at most. -/
theorem keepsDict_cmdTtl (hp : ∀ k ∈ args.tail.take 1, Footprint now k G p) :
    KeepsDict p (cmdTtl now args) := by
  refine keepsDict_needKey (by decide) fun hkey => (keepsDict_dbGet _).bind fun r => ?_
  have hp := hp _ hkey
  cases r with
  | none => exact keepsDict_emit _
  | some o =>
    refine Keeps.cond (keepsDict_emit _) ((keeps_raise _).bind fun remaining => ?_)
    refine Keeps.cond ?_ ((keeps_raise _).bind fun _ => keepsDict_emit _)
    exact (keepsDict_dbDel hp).bind fun _ => keepsDict_emit _

/-- `PERSIST` clears the deadline of its key. -/
theorem keepsDict_cmdPersist (hp : ∀ k ∈ args.tail.take 1, Footprint now k G p) :
    KeepsDict p (cmdPersist args) := by
  refine keepsDict_needKey (by decide) fun hkey => (keepsDict_dbGet _).bind fun r => ?_
  have hp := hp _ hkey
  cases r with
  | none => exact keepsDict_emit _
  | some o =>
    refine Keeps.cond (keepsDict_emit _) ?_
    exact (keepsDict_dbDeadline hp _).bind fun _ => keepsDict_emit _

/-- One deletion for each key. -/
theorem keepsDict_cmdDel (hp : ∀ k ∈ args.tail, Footprint now k G p) :
    KeepsDict p (cmdDel args) := by
  refine keepsDict_needArgs (Keeps.bind ?_ fun _ => keepsDict_emit _)
  refine Keeps.foldlM_mem args.tail (fun count key hkey => ?_) 0
  exact (keepsDict_dbDel (hp key hkey)).bind fun _ => Keeps.cond (Keeps.pure _) (Keeps.pure _)

section Text

variable (hstr : ∀ s, G (.str s))

include hstr

/-- `SET` stores a text under its key. -/
theorem keepsDict_cmdSet (hp : ∀ k ∈ args.tail.take 1, Footprint now k G p) :
    KeepsDict p (cmdSet args) :=
  keepsDict_needKey (by decide) fun hkey =>
    (keepsDict_dbSet (hp _ hkey) (hstr _)).bind fun _ => keepsDict_emit _

/-- So does `SETNX`, if nothing live is there. -/
theorem keepsDict_cmdSetnx (hp : ∀ k ∈ args.tail.take 1, Footprint now k G p) :
    KeepsDict p (cmdSetnx now args) := by
  refine keepsDict_needKey (by decide) fun hkey => ?_
  have hp := hp _ hkey
  refine keepsDict_found hp ?_ fun _ _ => keepsDict_emit _
  exact (keepsDict_dbSet hp (hstr _)).bind fun _ => keepsDict_emit _

/-- `APPEND` makes a text or writes a longer one. -/
theorem keepsDict_cmdAppend (hp : ∀ k ∈ args.tail.take 1, Footprint now k G p) :
    KeepsDict p (cmdAppend now args) := by
  refine keepsDict_needKey (by decide) fun hkey => ?_
  have hp := hp _ hkey
  refine keepsDict_found hp ?_ fun obj _ => ?_
  · exact (keepsDict_dbSet hp (hstr _)).bind fun _ => keepsDict_emit _
  cases obj.value with
  | str s => exact (keepsDict_dbWrite hp (hstr _)).bind fun _ => keepsDict_emit _
  | _ => exact keepsDict_emit _

/-- The counters write the sum as text. -/
theorem keepsDict_doIncr (hp : Footprint now key G p) (delta : Int) :
    KeepsDict p (doIncr now key delta) := by
  refine keepsDict_found hp ((keeps_raise _).bind fun val => ?_) fun obj _ => ?_
  · exact (keepsDict_dbSet hp (hstr _)).bind fun _ => keepsDict_emit _
  cases obj.value with
  | str s =>
    refine Keeps.cond (keepsDict_emit _) ((keeps_raise _).bind fun val => ?_)
    exact (keepsDict_dbWrite hp (hstr _)).bind fun _ => keepsDict_emit _
  | _ => exact keepsDict_emit _

/-- The commands that delete keys, set deadlines, or write strings. -/
def Command.isText : Command → Bool
  | .SET | .DEL | .EXPIRE | .TTL | .PERSIST => true
  | .SETNX | .APPEND | .INCR | .INCRBY | .DECR | .DECRBY => true
  | _ => false

/-- **Strings, deadlines and deletions** keep what the keys survive with strings as values. -/
theorem keeps_text {c : Command} (hc : c.isText = true)
    (hp : ∀ k ∈ c.keys args, Footprint now k G p) : KeepsDict p (c.handler libc now args) := by
  cases c with
  | SET => exact keepsDict_cmdSet hstr hp
  | DEL => exact keepsDict_cmdDel hp
  | EXPIRE => exact keepsDict_cmdExpire hp
  | TTL => exact keepsDict_cmdTtl hp
  | PERSIST => exact keepsDict_cmdPersist hp
  | SETNX => exact keepsDict_cmdSetnx hstr hp
  | APPEND => exact keepsDict_cmdAppend hstr hp
  -- the counters, which may convert their argument first
  | INCR => exact keepsDict_needKey le_rfl fun hkey => keepsDict_doIncr hstr (hp _ hkey) 1
  | INCRBY =>
    refine keepsDict_needKey (by decide) fun hkey => (keeps_raise _).bind fun delta => ?_
    exact keepsDict_doIncr hstr (hp _ hkey) delta
  | DECR => exact keepsDict_needKey le_rfl fun hkey => keepsDict_doIncr hstr (hp _ hkey) (-1)
  | DECRBY =>
    refine keepsDict_needKey (by decide) fun hkey => (keeps_raise _).bind fun delta => ?_
    exact (keeps_raise _).bind fun delta => keepsDict_doIncr hstr (hp _ hkey) delta
  | _ => exact absurd hc (by decide)

end Text

section Containers

variable (hG : ValueClass libc G)

include hG

/-- A push makes a list or writes a longer one. -/
theorem keepsDict_pushWith (hp : ∀ k ∈ args.tail.take 1, Footprint now k G p)
    (push : List Bytes → Bytes → List Bytes) (name : String) :
    KeepsDict p (pushWith push name now args) := by
  refine keepsDict_needKey (by decide) fun hkey => ?_
  have hp := hp _ hkey
  refine keepsDict_container hp (hG.list _) (fun v l hl => ?_) (keepsDict_emit _) fun l _ => ?_
  · cases v with
    | list l' => exact congrArg Value.list (Option.some.inj hl)
    | _ => cases hl
  · exact (keepsDict_dbWrite hp (hG.list _)).bind fun _ => keepsDict_emit _

/-- A pop writes a shorter list, and deletes the key of an empty one. -/
theorem keepsDict_popWith (hp : ∀ k ∈ args.tail.take 1, Footprint now k G p)
    (pop : List Bytes → List Bytes × Option Bytes) (name : String) :
    KeepsDict p (popWith pop name now args) := by
  refine keepsDict_needKey (by decide) fun hkey => ?_
  have hp := hp _ hkey
  refine keepsDict_found hp (keepsDict_emit _) fun obj _ => ?_
  cases obj.value with
  | list l =>
    dsimp only
    rcases pop l with ⟨l', _ | val⟩
    · exact keepsDict_emit _
    · refine (keepsDict_dbWrite hp (hG.list _)).bind fun _ => (keepsDict_emit _).bind fun _ => ?_
      exact Keeps.cond ((keepsDict_dbDel hp).bind fun _ => Keeps.pure _) (Keeps.pure _)
  | _ => exact keepsDict_emit _

/-- `HSET` makes a hash or writes one with the pairs set. -/
theorem keepsDict_cmdHset (hp : ∀ k ∈ args.tail.take 1, Footprint now k G p) :
    KeepsDict p (cmdHset now args) := by
  refine keepsDict_needPairsKey fun hkey => ?_
  have hp := hp _ hkey
  refine keepsDict_container hp hG.hashNew (fun v h hh => ?_) (keepsDict_emit _) fun h hh => ?_
  · cases v with
    | hash h' => exact congrArg Value.hash (Option.some.inj hh)
    | _ => cases hh
  · exact (keepsDict_dbWrite hp (hG.hsetLoop h 0 _ hh)).bind fun _ => keepsDict_emit _

/-- `HDEL` writes a hash without the fields. -/
theorem keepsDict_cmdHdel (hp : ∀ k ∈ args.tail.take 1, Footprint now k G p) :
    KeepsDict p (cmdHdel now args) := by
  refine keepsDict_needKey (by decide) fun hkey => ?_
  have hp := hp _ hkey
  refine keepsDict_found hp (keepsDict_emit _) fun obj hobj => ?_
  cases hvalue : obj.value with
  | hash h =>
    rw [hvalue] at hobj
    exact (keepsDict_dbWrite hp (hG.hdel _ (h, 0) hobj)).bind fun _ => keepsDict_emit _
  | _ => exact keepsDict_emit _

/-- Each iteration stores a sorted set of the class. -/
theorem keepsDict_zaddLoop (hp : Footprint now key G p) (z : ZSet) (added : ℕ)
    (pairs : List Bytes) (hz : G (.zset z)) : KeepsDict p (zaddLoop libc key z added pairs) := by
  fun_induction zaddLoop libc key z added pairs with
  | case1 z added score member rest ih =>
    refine (keeps_raise _).bind fun x s hs => ?_
    have hadd : G (.zset (zsetAdd libc z member x s.coins).1) := hG.zsetAdd z member x s.coins hz
    rw [exec_bind, run_dbZsetAdd]
    exact ih _ hadd _ (hp.write s.dict _ hadd hs)
  | case2 => exact Keeps.pure _

/-- `ZADD` makes a sorted set, and writes it after each pair. -/
theorem keepsDict_cmdZadd (hp : ∀ k ∈ args.tail.take 1, Footprint now k G p) :
    KeepsDict p (cmdZadd libc now args) := by
  refine keepsDict_needPairsKey fun hkey => ?_
  have hp := hp _ hkey
  refine keepsDict_container hp hG.zsetNew (fun v z hz => ?_) (keepsDict_emit _) fun z hz => ?_
  · cases v with
    | zset z' => exact congrArg Value.zset (Option.some.inj hz)
    | _ => cases hz
  · exact (keepsDict_zaddLoop hG hp z 0 _ hz).bind fun _ => keepsDict_emit _

/-- `ZREM` writes a sorted set without the members. -/
theorem keepsDict_cmdZrem (hp : ∀ k ∈ args.tail.take 1, Footprint now k G p) :
    KeepsDict p (cmdZrem libc now args) := by
  refine keepsDict_needKey (by decide) fun hkey => ?_
  have hp := hp _ hkey
  refine keepsDict_found hp (keepsDict_emit _) fun obj hobj => ?_
  cases hvalue : obj.value with
  | zset z =>
    rw [hvalue] at hobj
    exact (keepsDict_dbWrite hp (hG.zrem _ (z, 0) hobj)).bind fun _ => keepsDict_emit _
  | _ => exact keepsDict_emit _

/-- **The footprint of a command**: the handlers, but that of `FLUSHDB`, keep what survives the
accesses to the keys of the command, with values of a class. -/
theorem keeps_footprint {c : Command} (hc : c ≠ .FLUSHDB)
    (hp : ∀ k ∈ c.keys args, Footprint now k G p) : KeepsDict p (c.handler libc now args) := by
  by_cases hread : c.isRead = true
  · exact keeps_read libc hread fun k hk => (hp k hk).check
  by_cases htext : c.isText = true
  · exact keeps_text hG.str htext hp
  cases c with
  | FLUSHDB => exact absurd rfl hc
  | LPUSH => exact keepsDict_pushWith hG hp listLpush "lpush"
  | RPUSH => exact keepsDict_pushWith hG hp listRpush "rpush"
  | LPOP => exact keepsDict_popWith hG hp listLpop "lpop"
  | RPOP => exact keepsDict_popWith hG hp listRpop "rpop"
  | HSET => exact keepsDict_cmdHset hG hp
  | HDEL => exact keepsDict_cmdHdel hG hp
  | ZADD => exact keepsDict_cmdZadd hG hp
  | ZREM => exact keepsDict_cmdZrem hG hp
  | _ =>
    first
    | exact absurd rfl hread
    | exact absurd rfl htext

end Containers

end Minired
