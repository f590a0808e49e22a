import Minired.Expiry
import Minired.Rdb

/-!
# Commands

The handlers of `commands.cpp` and `dispatch_command`.

A handler changes the globals of the program and its client: it appends to the client's
`write_buf`, and `QUIT` sets `closing`. `Session` is all of this. A handler may end in an
exception of `std::stoll`, `std::stol` or `std::stod`, which nothing catches, or in a signed
overflow, whose behaviour is undefined; so `Cmd` is a state monad with exceptions, in which
what was done before an exception stays done. The clock is the argument `now`.

Where a handler changes a list, a hash or a sorted set through its pointer, the model works
on the content and stores it back under the key with `dbModify`.

`fork` gives the child of `BGSAVE` its own copy of the database; `children` collects these.
-/

namespace Minired

/-- The globals: the database, the coins of `random_level`, the file system, whether `fork`
succeeds, the databases of the children that save, and the path of the snapshot. -/
structure Globals where
  dict : Dict Obj
  coins : Coins
  fs : FileSys
  canFork : Bool
  children : List (Dict Obj)
  rdbPath : Bytes

/-- The globals, and what a handler changes of its client. -/
structure Session extends Globals where
  writeBuf : Bytes
  closing : Bool

/-- What a handler does. -/
abbrev Cmd := ExceptT Fault (StateM Session)

/-- Go on with the result of a conversion or of an arithmetic operation, or throw. -/
def raise {α : Type} : Except Fault α → Cmd α
  | .ok a => pure a
  | .error e => throw e

/-! ### Replies -/

/-- Append to `write_buf`. -/
def emit (data : Bytes) : Cmd Unit := modify fun s => { s with writeBuf := s.writeBuf ++ data }

/-- `reply_simple`. -/
def replySimple (msg : String) : Cmd Unit := emit (ascii "+" ++ ascii msg ++ crlf)

/-- `reply_error`. -/
def replyError (msg : String) : Cmd Unit := emit (ascii "-ERR " ++ ascii msg ++ crlf)

/-- `reply_integer`. -/
def replyInteger (n : Int) : Cmd Unit := emit (ascii ":" ++ decimalInt n ++ crlf)

/-- `reply_bulk`. -/
def replyBulk (data : Bytes) : Cmd Unit :=
  emit (ascii "$" ++ decimal data.length ++ crlf ++ data ++ crlf)

/-- `reply_null_bulk`. -/
def replyNullBulk : Cmd Unit := emit (ascii "$-1" ++ crlf)

/-- `reply_array_header`. -/
def replyArrayHeader (n : ℕ) : Cmd Unit := emit (ascii "*" ++ decimal n ++ crlf)

/-- The error of a handler that finds a value of another type. -/
def wrongType : Cmd Unit :=
  replyError "WRONGTYPE Operation against a key holding the wrong kind of value"

/-- The check of the number of arguments, the command's name included. -/
def needArgs (n : ℕ) (name : String) (args : List Bytes) (body : Cmd Unit) : Cmd Unit :=
  if args.length < n then replyError ("wrong number of arguments for '" ++ name ++ "'")
  else body

/-- The check of a command that takes a key and then pairs of arguments. -/
def needPairs (name : String) (args : List Bytes) (body : Cmd Unit) : Cmd Unit :=
  if args.length < 4 ∨ args.length % 2 ≠ 0 then
    replyError ("wrong number of arguments for '" ++ name ++ "'")
  else body

/-- `args[i]`. -/
def arg (args : List Bytes) (i : ℕ) : Bytes := args.getD i []

/-! ### Access to the database -/

/-- `dict_get` on the database. -/
def dbGet (key : Bytes) : Cmd (Option Obj) := do return dictGet (← get).dict key

/-- `dict_set` on the database. -/
def dbSet (key : Bytes) (obj : Obj) : Cmd Unit :=
  modify fun s => { s with dict := dictSet s.dict key obj }

/-- `dict_del` on the database. -/
def dbDel (key : Bytes) : Cmd Bool :=
  modifyGet fun s => ((dictDel s.dict key).2, { s with dict := (dictDel s.dict key).1 })

/-- A write through the pointer to the object of a key. -/
def dbModify (key : Bytes) (f : Obj → Obj) : Cmd Unit :=
  modify fun s => { s with dict := dictModify s.dict key f }

/-- `check_expiry` on the database; no handler looks at what it returns. -/
def dbCheckExpiry (now : Int64) (key : Bytes) : Cmd Unit :=
  modify fun s => { s with dict := (checkExpiry now s.dict key).1 }

/-- The same object with another value. -/
def Obj.setValue (value : Value) (o : Obj) : Obj := { o with value := value }

/-- `check_expiry`, `dict_get`, and a case for a null pointer: the beginning of most handlers. -/
def withKey {α : Type} (now : Int64) (key : Bytes) (missing : Cmd α) (found : Obj → Cmd α) :
    Cmd α := do
  dbCheckExpiry now key
  match ← dbGet key with
  | none => missing
  | some obj => found obj

/-- `get_or_create_list`, `get_or_create_hash` and `get_or_create_zset`: the content of the
container of a key, which is made when it is missing; `none` is the null pointer, for a value
of another type. -/
def getOrCreate {α : Type} (fresh : α) (wrap : α → Value) (content : Value → Option α)
    (now : Int64) (key : Bytes) : Cmd (Option α) :=
  withKey now key
    (do
      dbSet key (newObj (wrap fresh))
      return some fresh)
    fun obj => return content obj.value

/-! ### Connection and generic commands -/

/-- `cmd_ping`. -/
def cmdPing (args : List Bytes) : Cmd Unit :=
  if args.length = 1 then replySimple "PONG" else replyBulk (arg args 1)

/-- `cmd_echo`. -/
def cmdEcho (args : List Bytes) : Cmd Unit := needArgs 2 "echo" args (replyBulk (arg args 1))

/-- `cmd_set`. It does not look at the deadline: the new object has none. -/
def cmdSet (args : List Bytes) : Cmd Unit :=
  needArgs 3 "set" args do
    dbSet (arg args 1) (newObj (.str (arg args 2)))
    replySimple "OK"

/-- `cmd_get`. -/
def cmdGet (now : Int64) (args : List Bytes) : Cmd Unit :=
  needArgs 2 "get" args <| withKey now (arg args 1) replyNullBulk fun obj =>
    match obj.value with
    | .str s => replyBulk s
    | _ => wrongType

/-- One iteration of the loop of `cmd_del`. -/
def delCount (count : ℕ) (key : Bytes) : Cmd ℕ := do
  if ← dbDel key then return count + 1 else return count

/-- `cmd_del`. It does not look at the deadlines. -/
def cmdDel (args : List Bytes) : Cmd Unit :=
  needArgs 2 "del" args do
    let count ← args.tail.foldlM delCount 0
    replyInteger count

/-- One iteration of the loop of `cmd_exists`. -/
def existsCount (now : Int64) (count : ℕ) (key : Bytes) : Cmd ℕ :=
  withKey now key (pure count) fun _ => pure (count + 1)

/-- `cmd_exists`. -/
def cmdExists (now : Int64) (args : List Bytes) : Cmd Unit :=
  needArgs 2 "exists" args do
    let count ← args.tail.foldlM (existsCount now) 0
    replyInteger count

/-- `cmd_dbsize`. -/
def cmdDbsize (_args : List Bytes) : Cmd Unit := do replyInteger (dictSize (← get).dict)

/-- `cmd_quit`. -/
def cmdQuit (_args : List Bytes) : Cmd Unit := do
  replySimple "OK"
  modify fun s => { s with closing := true }

/-- `cmd_type`. -/
def cmdType (now : Int64) (args : List Bytes) : Cmd Unit :=
  needArgs 2 "type" args <| withKey now (arg args 1) (replySimple "none") fun obj =>
    match obj.value with
    | .str _ => replySimple "string"
    | .list _ => replySimple "list"
    | .hash _ => replySimple "hash"
    | .zset _ => replySimple "zset"

/-- `cmd_expire`. It does not look at the deadline that is there. -/
def cmdExpire (now : Int64) (args : List Bytes) : Cmd Unit :=
  needArgs 3 "expire" args do
    match ← dbGet (arg args 1) with
    | none => replyInteger 0
    | some _ =>
      let secs ← raise (stoll (arg args 2))
      let ms ← raise (int64 (secs * 1000))
      let expireAt ← raise (int64 (now.toInt + ms))
      dbModify (arg args 1) fun o => { o with expireAtMs := Int64.ofInt expireAt }
      replyInteger 1

/-- `cmd_ttl`. It compares the difference with zero, where `check_expiry` compares the two
times. -/
def cmdTtl (now : Int64) (args : List Bytes) : Cmd Unit :=
  needArgs 2 "ttl" args do
    match ← dbGet (arg args 1) with
    | none => replyInteger (-2)
    | some obj =>
      if obj.expireAtMs = 0 then replyInteger (-1)
      else
        let remaining ← raise (int64 (obj.expireAtMs.toInt - now.toInt))
        if remaining ≤ 0 then
          let _ ← dbDel (arg args 1)
          replyInteger (-2)
        else
          let rounded ← raise (int64 (remaining + 999))
          replyInteger (rounded / 1000)

/-- `cmd_persist`. It does not look at the deadline that it removes. -/
def cmdPersist (args : List Bytes) : Cmd Unit :=
  needArgs 2 "persist" args do
    match ← dbGet (arg args 1) with
    | none => replyInteger 0
    | some obj =>
      if obj.expireAtMs = 0 then replyInteger 0
      else
        dbModify (arg args 1) fun o => { o with expireAtMs := 0 }
        replyInteger 1

/-- `cmd_flushdb`. -/
def cmdFlushdb (_args : List Bytes) : Cmd Unit := do
  modify fun s => { s with dict := dictNew }
  replySimple "OK"

/-- `cmd_select`. -/
def cmdSelect (_args : List Bytes) : Cmd Unit := replySimple "OK"

/-- The loop of `glob_match` behind a star: try the rest of the pattern at every byte. -/
def globStar (rest : Bytes → Bool) : Bytes → Bool
  | [] => false
  | b :: str => rest (b :: str) || globStar rest str

/-- `glob_match`, on C strings. -/
def globMatch : Bytes → Bytes → Bool
  | [], str => str.isEmpty
  | p :: pattern, str =>
    if p = 42 then pattern.isEmpty || globStar (globMatch pattern) str
    else
      match str with
      | [] => false
      | b :: str => (p = 63 || p = b) && globMatch pattern str

/-- `keys_cb`. -/
def keysCb (pattern : Bytes) (ks : List Bytes) (key : Bytes) (_val : Obj) : List Bytes × Bool :=
  (if globMatch pattern (cstr key) then ks ++ [key] else ks, true)

/-- `cmd_keys`. -/
def cmdKeys (args : List Bytes) : Cmd Unit :=
  needArgs 2 "keys" args do
    let ks := dictEach (← get).dict (keysCb (cstr (arg args 1))) []
    replyArrayHeader ks.length
    ks.forM replyBulk

/-! ### Strings -/

/-- `cmd_setnx`. -/
def cmdSetnx (now : Int64) (args : List Bytes) : Cmd Unit :=
  needArgs 3 "setnx" args <| withKey now (arg args 1)
    (do
      dbSet (arg args 1) (newObj (.str (arg args 2)))
      replyInteger 1)
    fun _ => replyInteger 0

/-- `cmd_append`. -/
def cmdAppend (now : Int64) (args : List Bytes) : Cmd Unit :=
  needArgs 3 "append" args <| withKey now (arg args 1)
    (do
      dbSet (arg args 1) (newObj (.str (arg args 2)))
      replyInteger (arg args 2).length)
    fun obj =>
      match obj.value with
      | .str s => do
        dbModify (arg args 1) (Obj.setValue (.str (s ++ arg args 2)))
        replyInteger (s ++ arg args 2).length
      | _ => wrongType

/-- `cmd_strlen`. -/
def cmdStrlen (now : Int64) (args : List Bytes) : Cmd Unit :=
  needArgs 2 "strlen" args <| withKey now (arg args 1) (replyInteger 0) fun obj =>
    match obj.value with
    | .str s => replyInteger s.length
    | _ => wrongType

/-- `do_incr`. The stored text is read as a C string. -/
def doIncr (now : Int64) (key : Bytes) (delta : Int) : Cmd Unit :=
  withKey now key
    (do
      let val ← raise (int64 (0 + delta))
      dbSet key (newObj (.str (decimalInt val)))
      replyInteger val)
    fun obj =>
      match obj.value with
      | .str s =>
        -- the text must end where `strtoll` stopped
        if (strtoll s).2.headD 0 ≠ 0 then
          replyError "value is not an integer or out of range"
        else do
          let val ← raise (int64 ((strtoll s).1 + delta))
          dbModify key (Obj.setValue (.str (decimalInt val)))
          replyInteger val
      | _ => wrongType

/-- `cmd_incr`. -/
def cmdIncr (now : Int64) (args : List Bytes) : Cmd Unit :=
  needArgs 2 "incr" args (doIncr now (arg args 1) 1)

/-- `cmd_incrby`. -/
def cmdIncrby (now : Int64) (args : List Bytes) : Cmd Unit :=
  needArgs 3 "incrby" args do
    let delta ← raise (stoll (arg args 2))
    doIncr now (arg args 1) delta

/-- `cmd_decr`. -/
def cmdDecr (now : Int64) (args : List Bytes) : Cmd Unit :=
  needArgs 2 "decr" args (doIncr now (arg args 1) (-1))

/-- `cmd_decrby`. -/
def cmdDecrby (now : Int64) (args : List Bytes) : Cmd Unit :=
  needArgs 3 "decrby" args do
    let delta ← raise (stoll (arg args 2))
    let delta ← raise (int64 (-delta))
    doIncr now (arg args 1) delta

/-! ### Lists -/

/-- `get_or_create_list`. -/
def getOrCreateList : Int64 → Bytes → Cmd (Option (List Bytes)) :=
  getOrCreate [] .list Value.list?

/-- `cmd_lpush` and `cmd_rpush`, by their name and what they do with an element. -/
def pushWith (push : List Bytes → Bytes → List Bytes) (name : String) (now : Int64)
    (args : List Bytes) : Cmd Unit :=
  needArgs 3 name args do
    match ← getOrCreateList now (arg args 1) with
    | none => wrongType
    | some l =>
      let l := (args.drop 2).foldl push l
      dbModify (arg args 1) (Obj.setValue (.list l))
      replyInteger l.length

/-- `cmd_lpush`. -/
def cmdLpush : Int64 → List Bytes → Cmd Unit := pushWith listLpush "lpush"

/-- `cmd_rpush`. -/
def cmdRpush : Int64 → List Bytes → Cmd Unit := pushWith listRpush "rpush"

/-- `cmd_lpop` and `cmd_rpop`, by their name and the end they pop from. -/
def popWith (pop : List Bytes → List Bytes × Option Bytes) (name : String) (now : Int64)
    (args : List Bytes) : Cmd Unit :=
  needArgs 2 name args <| withKey now (arg args 1) replyNullBulk fun obj =>
    match obj.value with
    | .list l =>
      match pop l with
      | (_, none) => replyNullBulk
      | (l, some val) => do
        dbModify (arg args 1) (Obj.setValue (.list l))
        replyBulk val
        if l.length = 0 then
          let _ ← dbDel (arg args 1)
    | _ => replyNullBulk

/-- `cmd_lpop`. -/
def cmdLpop : Int64 → List Bytes → Cmd Unit := popWith listLpop "lpop"

/-- `cmd_rpop`. -/
def cmdRpop : Int64 → List Bytes → Cmd Unit := popWith listRpop "rpop"

/-- `cmd_llen`. -/
def cmdLlen (now : Int64) (args : List Bytes) : Cmd Unit :=
  needArgs 2 "llen" args <| withKey now (arg args 1) (replyInteger 0) fun obj =>
    match obj.value with
    | .list l => replyInteger l.length
    | _ => wrongType

/-- `cmd_lrange`. -/
def cmdLrange (now : Int64) (args : List Bytes) : Cmd Unit :=
  needArgs 4 "lrange" args <| withKey now (arg args 1) (replyArrayHeader 0) fun obj =>
    match obj.value with
    | .list l => do
      let start ← raise (stoll (arg args 2))
      let stop ← raise (stoll (arg args 3))
      let out := listRange l start stop 65536
      replyArrayHeader out.length
      out.forM replyBulk
    | _ => wrongType

/-- `cmd_lindex`. -/
def cmdLindex (now : Int64) (args : List Bytes) : Cmd Unit :=
  needArgs 3 "lindex" args <| withKey now (arg args 1) replyNullBulk fun obj =>
    match obj.value with
    | .list l => do
      let index ← raise (stoll (arg args 2))
      match listIndex l index with
      | none => replyNullBulk
      | some val => replyBulk val
    | _ => replyNullBulk

/-! ### Hashes -/

/-- `get_or_create_hash`. -/
def getOrCreateHash : Int64 → Bytes → Cmd (Option (Dict Bytes)) :=
  getOrCreate dictNew .hash Value.hash?

/-- The loop of `cmd_hset` over the fields and values. -/
def hsetLoop (h : Dict Bytes) (count : ℕ) : List Bytes → Dict Bytes × ℕ
  | field :: value :: rest =>
    let isnew := !htableExists h field
    hsetLoop (htableSet h field value) (if isnew then count + 1 else count) rest
  | _ => (h, count)

/-- `cmd_hset`. -/
def cmdHset (now : Int64) (args : List Bytes) : Cmd Unit :=
  needPairs "hset" args do
    match ← getOrCreateHash now (arg args 1) with
    | none => wrongType
    | some h =>
      let r := hsetLoop h 0 (args.drop 2)
      dbModify (arg args 1) (Obj.setValue (.hash r.1))
      replyInteger r.2

/-- `cmd_hget`. -/
def cmdHget (now : Int64) (args : List Bytes) : Cmd Unit :=
  needArgs 3 "hget" args <| withKey now (arg args 1) replyNullBulk fun obj =>
    match obj.value with
    | .hash h =>
      match htableGet h (arg args 2) with
      | none => replyNullBulk
      | some val => replyBulk val
    | _ => replyNullBulk

/-- One iteration of the loop of `cmd_hdel`. -/
def hdelCount (acc : Dict Bytes × ℕ) (field : Bytes) : Dict Bytes × ℕ :=
  ((htableDel acc.1 field).1, if (htableDel acc.1 field).2 then acc.2 + 1 else acc.2)

/-- `cmd_hdel`. -/
def cmdHdel (now : Int64) (args : List Bytes) : Cmd Unit :=
  needArgs 3 "hdel" args <| withKey now (arg args 1) (replyInteger 0) fun obj =>
    match obj.value with
    | .hash h => do
      let r := (args.drop 2).foldl hdelCount (h, 0)
      dbModify (arg args 1) (Obj.setValue (.hash r.1))
      replyInteger r.2
    | _ => replyInteger 0

/-- `cmd_hexists`. -/
def cmdHexists (now : Int64) (args : List Bytes) : Cmd Unit :=
  needArgs 3 "hexists" args <| withKey now (arg args 1) (replyInteger 0) fun obj =>
    match obj.value with
    | .hash h => replyInteger (if htableExists h (arg args 2) then 1 else 0)
    | _ => replyInteger 0

/-- `cmd_hlen`. -/
def cmdHlen (now : Int64) (args : List Bytes) : Cmd Unit :=
  needArgs 2 "hlen" args <| withKey now (arg args 1) (replyInteger 0) fun obj =>
    match obj.value with
    | .hash h => replyInteger (htableLen h)
    | _ => replyInteger 0

/-- `cmd_hgetall`, `cmd_hkeys` and `cmd_hvals`, by their name and what they reply for one
entry; the array has `width` elements an entry. -/
def hlistWith (width : ℕ) (reply : Bytes × Bytes → Cmd Unit) (name : String) (now : Int64)
    (args : List Bytes) : Cmd Unit :=
  needArgs 2 name args <| withKey now (arg args 1) (replyArrayHeader 0) fun obj =>
    match obj.value with
    | .hash h => do
      let out := htableGetall h 4096
      replyArrayHeader (out.length * width)
      out.forM reply
    | _ => replyArrayHeader 0

/-- `cmd_hgetall`. -/
def cmdHgetall : Int64 → List Bytes → Cmd Unit :=
  hlistWith 2 (fun e => do replyBulk e.1; replyBulk e.2) "hgetall"

/-- `cmd_hkeys`. -/
def cmdHkeys : Int64 → List Bytes → Cmd Unit := hlistWith 1 (fun e => replyBulk e.1) "hkeys"

/-- `cmd_hvals`. -/
def cmdHvals : Int64 → List Bytes → Cmd Unit := hlistWith 1 (fun e => replyBulk e.2) "hvals"

/-! ### Sorted sets -/

variable (libc : Libc)

/-- `get_or_create_zset`. -/
def getOrCreateZset : Int64 → Bytes → Cmd (Option ZSet) :=
  getOrCreate zsetNew .zset Value.zset?

/-- `zset_add` on the sorted set of a key; it flips coins. -/
def dbZsetAdd (key : Bytes) (z : ZSet) (member : Bytes) (score : Double) : Cmd ZSet := do
  let r ← modifyGet fun s =>
    let r := zsetAdd libc z member score s.coins
    (r.1, { s with coins := r.2 })
  dbModify key (Obj.setValue (.zset r))
  return r

/-- The loop of `cmd_zadd` over the scores and members. `zset_add` always returns true. -/
def zaddLoop (key : Bytes) (z : ZSet) (added : ℕ) : List Bytes → Cmd ℕ
  | score :: member :: rest => do
    let score ← raise (libc.stod score)
    let z ← dbZsetAdd libc key z member score
    zaddLoop key z (added + 1) rest
  | _ => return added

/-- `cmd_zadd`. -/
def cmdZadd (now : Int64) (args : List Bytes) : Cmd Unit :=
  needPairs "zadd" args do
    match ← getOrCreateZset now (arg args 1) with
    | none => wrongType
    | some z =>
      let added ← zaddLoop libc (arg args 1) z 0 (args.drop 2)
      replyInteger added

/-- `cmd_zscore`. -/
def cmdZscore (now : Int64) (args : List Bytes) : Cmd Unit :=
  needArgs 3 "zscore" args <| withKey now (arg args 1) replyNullBulk fun obj =>
    match obj.value with
    | .zset z =>
      match zsetScore libc z (arg args 2) with
      | none => replyNullBulk
      | some score => replyBulk (libc.printG17 score)
    | _ => replyNullBulk

/-- `tolower` in the C locale. -/
def tolower (b : UInt8) : UInt8 := if 65 ≤ b ∧ b ≤ 90 then b + 32 else b

/-- What `cmd_zrange` replies for one member, which it reads as a C string. -/
def zrangeReply (withscores : Bool) (m : Bytes × Double) : Cmd Unit := do
  replyBulk (cstr m.1)
  if withscores then replyBulk (libc.printG17 m.2)

/-- `cmd_zrange`. -/
def cmdZrange (now : Int64) (args : List Bytes) : Cmd Unit :=
  needArgs 4 "zrange" args <| withKey now (arg args 1) (replyArrayHeader 0) fun obj =>
    match obj.value with
    | .zset z => do
      let start ← raise (stoll (arg args 2))
      let stop ← raise (stoll (arg args 3))
      let withscores := decide (args.length ≥ 5) &&
        (cstr (arg args 4)).map tolower = ascii "withscores"
      let out := zsetRange z start stop 4096
      replyArrayHeader (if withscores then out.length * 2 else out.length)
      out.forM (zrangeReply libc withscores)
    | _ => replyArrayHeader 0

/-- `cmd_zrank`. -/
def cmdZrank (now : Int64) (args : List Bytes) : Cmd Unit :=
  needArgs 3 "zrank" args <| withKey now (arg args 1) replyNullBulk fun obj =>
    match obj.value with
    | .zset z =>
      let rank := zsetRank z (arg args 2)
      if rank < 0 then replyNullBulk else replyInteger rank
    | _ => replyNullBulk

/-- `cmd_zcard`. -/
def cmdZcard (now : Int64) (args : List Bytes) : Cmd Unit :=
  needArgs 2 "zcard" args <| withKey now (arg args 1) (replyInteger 0) fun obj =>
    match obj.value with
    | .zset z => replyInteger (zsetCard z)
    | _ => replyInteger 0

/-- One iteration of the loop of `cmd_zrem`. -/
def zremCount (acc : ZSet × ℕ) (member : Bytes) : ZSet × ℕ :=
  ((zsetRem libc acc.1 member).1, if (zsetRem libc acc.1 member).2 then acc.2 + 1 else acc.2)

/-- `cmd_zrem`. -/
def cmdZrem (now : Int64) (args : List Bytes) : Cmd Unit :=
  needArgs 3 "zrem" args <| withKey now (arg args 1) (replyInteger 0) fun obj =>
    match obj.value with
    | .zset z => do
      let r := (args.drop 2).foldl (zremCount libc) (z, 0)
      dbModify (arg args 1) (Obj.setValue (.zset r.1))
      replyInteger r.2
    | _ => replyInteger 0

/-! ### Snapshots -/

/-- `cmd_save`. -/
def cmdSave (_args : List Bytes) : Cmd Unit := do
  let ok ← modifyGet fun s =>
    let r := rdbSave s.fs s.dict s.rdbPath
    (r.2, { s with fs := r.1 })
  if ok then replySimple "OK" else replyError "snapshot failed"

/-- `cmd_bgsave`, in the parent. -/
def cmdBgsave (_args : List Bytes) : Cmd Unit := do
  if (← get).canFork then
    modify fun s => { s with children := s.children ++ [s.dict] }
    replySimple "Background saving started"
  else replyError "fork failed"

/-! ### Dispatch -/

/-- The entries of `command_table`. -/
inductive Command
  | PING | ECHO | SET | GET | DEL | EXISTS | DBSIZE | QUIT
  | TYPE | EXPIRE | TTL | PERSIST | FLUSHDB | SELECT | KEYS
  | SETNX | APPEND | STRLEN | INCR | INCRBY | DECR | DECRBY
  | LPUSH | RPUSH | LPOP | RPOP | LLEN | LRANGE | LINDEX
  | HSET | HGET | HDEL | HEXISTS | HLEN | HGETALL | HKEYS | HVALS
  | ZADD | ZSCORE | ZRANGE | ZRANK | ZCARD | ZREM
  | SAVE | BGSAVE
deriving DecidableEq

/-- `Command::name`. -/
def Command.name : Command → Bytes
  | .PING => ascii "ping" | .ECHO => ascii "echo" | .SET => ascii "set" | .GET => ascii "get"
  | .DEL => ascii "del" | .EXISTS => ascii "exists" | .DBSIZE => ascii "dbsize"
  | .QUIT => ascii "quit" | .TYPE => ascii "type" | .EXPIRE => ascii "expire"
  | .TTL => ascii "ttl" | .PERSIST => ascii "persist" | .FLUSHDB => ascii "flushdb"
  | .SELECT => ascii "select" | .KEYS => ascii "keys" | .SETNX => ascii "setnx"
  | .APPEND => ascii "append" | .STRLEN => ascii "strlen" | .INCR => ascii "incr"
  | .INCRBY => ascii "incrby" | .DECR => ascii "decr" | .DECRBY => ascii "decrby"
  | .LPUSH => ascii "lpush" | .RPUSH => ascii "rpush" | .LPOP => ascii "lpop"
  | .RPOP => ascii "rpop" | .LLEN => ascii "llen" | .LRANGE => ascii "lrange"
  | .LINDEX => ascii "lindex" | .HSET => ascii "hset" | .HGET => ascii "hget"
  | .HDEL => ascii "hdel" | .HEXISTS => ascii "hexists" | .HLEN => ascii "hlen"
  | .HGETALL => ascii "hgetall" | .HKEYS => ascii "hkeys" | .HVALS => ascii "hvals"
  | .ZADD => ascii "zadd" | .ZSCORE => ascii "zscore" | .ZRANGE => ascii "zrange"
  | .ZRANK => ascii "zrank" | .ZCARD => ascii "zcard" | .ZREM => ascii "zrem"
  | .SAVE => ascii "save" | .BGSAVE => ascii "bgsave"

/-- `Command::handler`. -/
def Command.handler (now : Int64) : Command → List Bytes → Cmd Unit
  | .PING => cmdPing | .ECHO => cmdEcho | .SET => cmdSet | .GET => cmdGet now
  | .DEL => cmdDel | .EXISTS => cmdExists now | .DBSIZE => cmdDbsize | .QUIT => cmdQuit
  | .TYPE => cmdType now | .EXPIRE => cmdExpire now | .TTL => cmdTtl now
  | .PERSIST => cmdPersist | .FLUSHDB => cmdFlushdb | .SELECT => cmdSelect | .KEYS => cmdKeys
  | .SETNX => cmdSetnx now | .APPEND => cmdAppend now | .STRLEN => cmdStrlen now
  | .INCR => cmdIncr now | .INCRBY => cmdIncrby now | .DECR => cmdDecr now
  | .DECRBY => cmdDecrby now | .LPUSH => cmdLpush now | .RPUSH => cmdRpush now
  | .LPOP => cmdLpop now | .RPOP => cmdRpop now | .LLEN => cmdLlen now
  | .LRANGE => cmdLrange now | .LINDEX => cmdLindex now | .HSET => cmdHset now
  | .HGET => cmdHget now | .HDEL => cmdHdel now | .HEXISTS => cmdHexists now
  | .HLEN => cmdHlen now | .HGETALL => cmdHgetall now | .HKEYS => cmdHkeys now
  | .HVALS => cmdHvals now | .ZADD => cmdZadd libc now | .ZSCORE => cmdZscore libc now
  | .ZRANGE => cmdZrange libc now | .ZRANK => cmdZrank now | .ZCARD => cmdZcard now
  | .ZREM => cmdZrem libc now | .SAVE => cmdSave | .BGSAVE => cmdBgsave

/-- `command_table`, in the order in which it is searched. -/
def commandTable : List Command :=
  [.PING, .ECHO, .SET, .GET, .DEL, .EXISTS, .DBSIZE, .QUIT,
    .TYPE, .EXPIRE, .TTL, .PERSIST, .FLUSHDB, .SELECT, .KEYS,
    .SETNX, .APPEND, .STRLEN, .INCR, .INCRBY, .DECR, .DECRBY,
    .LPUSH, .RPUSH, .LPOP, .RPOP, .LLEN, .LRANGE, .LINDEX,
    .HSET, .HGET, .HDEL, .HEXISTS, .HLEN, .HGETALL, .HKEYS, .HVALS,
    .ZADD, .ZSCORE, .ZRANGE, .ZRANK, .ZCARD, .ZREM, .SAVE, .BGSAVE]

/-- The entry that `dispatch_command` finds for a name in any case. -/
def findCommand (name : Bytes) : Option Command :=
  commandTable.find? fun c => c.name = name.map tolower

/-- `dispatch_command`. -/
def dispatchCommand (now : Int64) : List Bytes → Cmd Unit
  | [] => pure ()
  | name :: args =>
    match findCommand name with
    | some c => c.handler libc now (name :: args)
    | none => do
      emit (ascii "-ERR unknown command '")
      emit (name.map tolower)
      emit (ascii "'" ++ crlf)

end Minired
