import Minired.Server
import Minired.Lib.Appending

/-!
# Replies

A handler writes to `write_buf` and never reads it, so what it does is the same whatever
replies wait there. `Replies throws m` says this of a handler, and that what it appends, when
it returns, is one value of the protocol, a `RespValue`. Its proofs follow the code:
`Silent` parts write nothing, and the array replies write their header and then as many bulk
strings as the header says.

The same pass records which exceptions there can be: only the handlers of `Command.throws`
call `std::stoll`, `std::stol` or `std::stod`; all others end otherwise at most where a signed
integer overflows.

The error for an unknown command is written in three pieces, and the middle one is the name
that the client sent. It is one line if and only if the name has no CR and no LF
(`one_reply_iff`).
-/

namespace Minired

open Appending Framing Relational

/-! ### Values of the protocol -/

/-- Bytes without CR and LF. -/
def IsLine (l : Bytes) : Prop := 13 ∉ l ∧ 10 ∉ l

/-- Whether bytes are a line can be computed. -/
instance (l : Bytes) : Decidable (IsLine l) := inferInstanceAs (Decidable (_ ∧ _))

/-- A line is made of lines. -/
theorem isLine_append {a b : Bytes} : IsLine (a ++ b) ↔ IsLine a ∧ IsLine b := by
  simp only [IsLine, List.mem_append, not_or]
  exact and_and_and_comm

/-- Lines make a line. -/
theorem IsLine.append {a b : Bytes} (ha : IsLine a) (hb : IsLine b) : IsLine (a ++ b) :=
  isLine_append.mpr ⟨ha, hb⟩

/-- A value that a server may send: a simple string, an error, an integer, a bulk string, the
null bulk string, or an array of bulk strings. -/
inductive RespValue
  | simple (line : { l // IsLine l })
  | error (line : { l // IsLine l })
  | integer (n : Int)
  | bulk (data : Bytes)
  | nullBulk
  | array (items : List Bytes)

/-- The value on the wire. -/
def RespValue.encode : RespValue → Bytes
  | .simple line => ascii "+" ++ line.1 ++ crlf
  | .error line => ascii "-" ++ line.1 ++ crlf
  | .integer n => ascii ":" ++ decimalInt n ++ crlf
  | .bulk data => respBulk data
  | .nullBulk => ascii "$-1" ++ crlf
  | .array items => header 42 items.length ++ stream respBulk items

/-- The first byte of a value. -/
def RespValue.mark : RespValue → UInt8
  | .simple _ => 43
  | .error _ => 45
  | .integer _ => 58
  | .bulk _ => 36
  | .nullBulk => 36
  | .array _ => 42

/-- The first byte of an encoding is the mark of its kind. -/
theorem RespValue.head_encode (v : RespValue) : v.encode.head? = some v.mark := by
  cases v <;> rfl

/-- The bytes are one value of the protocol. -/
def IsReply (r : Bytes) : Prop := ∃ v : RespValue, v.encode = r

/-! ### Sessions as a log and the rest -/

/-- The commands whose handlers convert an argument with `std::stoll`, `std::stol` or
`std::stod`. -/
def Command.throws : Command → Bool
  | .EXPIRE | .INCRBY | .DECRBY | .LRANGE | .LINDEX | .ZADD | .ZRANGE => true
  | _ => false

/-- The session with `w` in its `write_buf`; the rest are the globals and `closing`. -/
def Session.at (t : Globals × Bool) (w : Bytes) : Session :=
  { t.1 with writeBuf := w, closing := t.2 }

/-- A session is put together again from its parts. -/
theorem Session.at_eq (s : Session) : Session.at (s.toGlobals, s.closing) s.writeBuf = s := rfl

/-- The exceptions of a handler that converts numbers, or does not. -/
def Allowed (throws : Bool) (e : Fault) : Prop := throws = true ∨ e = .signedOverflow

/-- A part of a handler that writes nothing. -/
abbrev Silent (throws : Bool) {α : Type} (m : Cmd α) : Prop :=
  Writes Session.at (Allowed throws) (fun _ r => r = []) m

/-- A part of a handler that writes `data`. -/
abbrev Emits (throws : Bool) (data : Bytes) (m : Cmd Unit) : Prop :=
  Writes Session.at (Allowed throws) (fun _ r => r = data) m

/-- A handler that writes one value. -/
abbrev Replies (throws : Bool) (m : Cmd Unit) : Prop :=
  Writes Session.at (Allowed throws) (fun _ r => IsReply r) m

variable {throws : Bool} {α β : Type}

/-- A value that is there writes nothing. -/
theorem silent_pure (a : α) : Silent throws (pure a : Cmd α) := Writes.pure rfl

/-- A conversion writes nothing, and may throw. -/
theorem silent_raise (r : Except Fault α) : Silent true (raise r) := by
  cases r with
  | ok a => exact Writes.pure rfl
  | error e => exact Writes.throw (Or.inl rfl)

/-- A sum that has to fit writes nothing. An overflow is no exception. -/
theorem silent_int64 (n : Int) : Silent throws (raise (int64 n)) := by
  rw [int64]
  split
  · exact Writes.pure rfl
  · exact Writes.throw (Or.inr rfl)

/-- What is appended is what is written. -/
theorem emits_emit (data : Bytes) : Emits throws data (emit data) :=
  Writes.append fun _ _ => rfl

/-- A lookup writes nothing. -/
theorem silent_dbGet (key : Bytes) : Silent throws (dbGet key) :=
  Writes.get_bind (g := fun t => pure (dictGet t.1.dict key)) (fun _ _ => rfl)
    fun _ => silent_pure _

/-- Neither does storing an object. -/
theorem silent_dbSet (key : Bytes) (obj : Obj) : Silent throws (dbSet key obj) :=
  Writes.modify (g := fun t => ({ t.1 with dict := dictSet t.1.dict key obj }, t.2))
    fun _ _ => rfl

/-- Neither does a deletion. -/
theorem silent_dbDel (key : Bytes) : Silent throws (dbDel key) :=
  Writes.modifyGet (a := fun t => (dictDel t.1.dict key).2)
    (g := fun t => ({ t.1 with dict := (dictDel t.1.dict key).1 }, t.2)) fun _ _ => rfl

/-- Neither does an update. -/
theorem silent_dbModify (key : Bytes) (f : Obj → Obj) : Silent throws (dbModify key f) :=
  Writes.modify (g := fun t => ({ t.1 with dict := dictModify t.1.dict key f }, t.2))
    fun _ _ => rfl

/-- Neither does the check of a deadline. -/
theorem silent_dbCheckExpiry (now : Int64) (key : Bytes) :
    Silent throws (dbCheckExpiry now key) :=
  Writes.modify (g := fun t => ({ t.1 with dict := (checkExpiry now t.1.dict key).1 }, t.2))
    fun _ _ => rfl

/-- What holds of both cases holds behind `check_expiry` and `dict_get`. -/
theorem writes_withKey {P : α → Bytes → Prop} {now : Int64} {key : Bytes} {missing : Cmd α}
    {found : Obj → Cmd α} (hmissing : Writes Session.at (Allowed throws) P missing)
    (hfound : ∀ obj, Writes Session.at (Allowed throws) P (found obj)) :
    Writes Session.at (Allowed throws) P (withKey now key missing found) := by
  refine (silent_dbCheckExpiry now key).bind_silent fun _ => ?_
  refine (silent_dbGet key).bind_silent fun r => ?_
  cases r with
  | none => exact hmissing
  | some obj => exact hfound obj

/-- The helpers that make a missing container write nothing themselves. -/
theorem silent_getOrCreate (fresh : α) (wrap : α → Value) (content : Value → Option α)
    (now : Int64) (key : Bytes) : Silent throws (getOrCreate fresh wrap content now key) :=
  writes_withKey ((silent_dbSet _ _).bind_silent fun _ => silent_pure _) fun _ => silent_pure _

/-! ### The reply functions -/

/-- What writes one reply replies. -/
theorem replies_of_emits {data : Bytes} {m : Cmd Unit} (h : Emits throws data m)
    (hdata : IsReply data) : Replies throws m :=
  h.mono (fun _ he => he) fun _ _ hr => by rwa [hr]

/-- A status is a reply if its text is one line. -/
theorem replies_simple {msg : String} (hmsg : IsLine (ascii msg)) :
    Replies throws (replySimple msg) :=
  replies_of_emits (emits_emit _) ⟨.simple ⟨_, hmsg⟩, rfl⟩

/-- So is an error. -/
theorem replies_error {msg : String} (hmsg : IsLine (ascii msg)) :
    Replies throws (replyError msg) := by
  have hhead : IsLine (ascii "ERR ") := by decide
  have hline := hhead.append hmsg
  exact replies_of_emits (emits_emit _) ⟨.error ⟨_, hline⟩, rfl⟩

/-- A number is a reply. -/
theorem replies_integer (n : Int) : Replies throws (replyInteger n) :=
  replies_of_emits (emits_emit _) ⟨.integer n, rfl⟩

/-- A bulk string is written with its length in front. -/
theorem emits_bulk (data : Bytes) : Emits throws (respBulk data) (replyBulk data) :=
  emits_emit _

/-- A bulk string is a reply, whatever its bytes are. -/
theorem replies_bulk (data : Bytes) : Replies throws (replyBulk data) :=
  replies_of_emits (emits_bulk data) ⟨.bulk data, rfl⟩

/-- So is nil. -/
theorem replies_nullBulk : Replies throws replyNullBulk :=
  replies_of_emits (emits_emit _) ⟨.nullBulk, rfl⟩

/-- So is the error for a wrong type. -/
theorem replies_wrongType : Replies throws wrongType := replies_error (by decide)

/-- A header, and behind it as many bulk strings as it says. -/
theorem replies_array (items : List Bytes) {m : Cmd Unit}
    (hm : Emits throws (stream respBulk items) m) :
    Replies throws (replyArrayHeader items.length >>= fun _ => m) := by
  refine (emits_emit _).bind fun _ r hr => hm.mono (fun _ he => he) fun _ r' hr' => ?_
  rw [hr, hr']
  exact ⟨.array items, rfl⟩

/-- A header that announces nothing is a reply by itself. -/
theorem replies_emptyArray : Replies throws (replyArrayHeader 0) :=
  replies_of_emits (emits_emit _) ⟨.array [], rfl⟩

/-- A loop that writes bulk strings, the items of each element. -/
theorem emits_bulks {f : β → Cmd Unit} {g : β → List Bytes}
    (hf : ∀ b, Emits throws (stream respBulk (g b)) (f b)) (bs : List β) :
    Emits throws (stream respBulk (bs.flatMap g)) (bs.forM f) := by
  have hstream : bs.flatMap (fun b => stream respBulk (g b)) = stream respBulk (bs.flatMap g) := by
    induction bs with
    | nil => rfl
    | cons b bs ih => rw [List.flatMap_cons, List.flatMap_cons, stream_append, ih]
  exact (Writes.forM hf bs).mono (fun _ he => he) fun _ r hr => hr.trans hstream

/-- An array that a loop replies, `width` items for each element. -/
theorem replies_arrayOf {f : β → Cmd Unit} {g : β → List Bytes} {width : ℕ}
    (hf : ∀ b, Emits throws (stream respBulk (g b)) (f b)) (hg : ∀ b, (g b).length = width)
    (bs : List β) : Replies throws (do replyArrayHeader (bs.length * width); bs.forM f) := by
  have hlen : (bs.flatMap g).length = bs.length * width := by
    rw [List.length_flatMap, List.map_congr_left fun b _ => hg b, List.map_const',
      List.sum_replicate, smul_eq_mul]
  rw [← hlen]
  exact replies_array _ (emits_bulks hf bs)

/-- One item of a list. -/
theorem emits_one (item : Bytes) : Emits throws (stream respBulk [item]) (replyBulk item) := by
  rw [stream_cons, stream_nil, List.append_nil]
  exact emits_bulk item

/-- Two items of a list. -/
theorem emits_two (a b : Bytes) :
    Emits throws (stream respBulk [a, b]) (do replyBulk a; replyBulk b) := by
  rw [stream_cons]
  refine (emits_bulk a).bind fun _ r hr => (emits_one b).mono (fun _ he => he) fun _ r' hr' => ?_
  rw [hr, hr']

/-- An array of bulk strings. -/
theorem replies_bulks (items : List Bytes) :
    Replies throws (do replyArrayHeader items.length; items.forM replyBulk) := by
  have h := replies_arrayOf (@emits_one throws) (fun _ => rfl) items
  rwa [Nat.mul_one] at h

/-- The error about the number of arguments is one line if the name of the command is. -/
theorem isLine_wrongNumber {name : String} (hname : IsLine (ascii name)) :
    IsLine (ascii ("wrong number of arguments for '" ++ name ++ "'")) := by
  have hpieces : ascii ("wrong number of arguments for '" ++ name ++ "'") =
      ascii "wrong number of arguments for '" ++ ascii name ++ ascii "'" := by
    simp only [ascii, String.toList_append, List.map_append]
  have hhead : IsLine (ascii "wrong number of arguments for '") := by decide
  have hquote : IsLine (ascii "'") := by decide
  rw [hpieces]
  exact (hhead.append hname).append hquote

/-- With too few arguments one error is written, and with enough what the body replies. -/
theorem replies_needArgs {n : ℕ} {name : String} (hname : IsLine (ascii name)) {args : List Bytes}
    {body : Cmd Unit} (h : Replies throws body) : Replies throws (needArgs n name args body) :=
  Writes.cond (replies_error (isLine_wrongNumber hname)) h

/-- So it is with pairs. -/
theorem replies_needPairs {name : String} (hname : IsLine (ascii name)) {args : List Bytes}
    {body : Cmd Unit} (h : Replies throws body) : Replies throws (needPairs name args body) :=
  Writes.cond (replies_error (isLine_wrongNumber hname)) h

/-! ### The handlers -/

section Handlers

variable (now : Int64) (args : List Bytes)

/-- `PING` replies `PONG` or its argument. -/
theorem replies_cmdPing : Replies throws (cmdPing args) :=
  Writes.cond (replies_simple (by decide)) (replies_bulk _)

/-- `ECHO` replies its argument. -/
theorem replies_cmdEcho : Replies throws (cmdEcho args) :=
  replies_needArgs (by decide) (replies_bulk _)

/-- `SET` replies `OK`. -/
theorem replies_cmdSet : Replies throws (cmdSet args) :=
  replies_needArgs (by decide) <|
    (silent_dbSet _ _).bind_silent fun _ => replies_simple (by decide)

/-- `GET` replies the text, nil, or that the type is wrong. -/
theorem replies_cmdGet : Replies throws (cmdGet now args) := by
  refine replies_needArgs (by decide) (writes_withKey replies_nullBulk fun obj => ?_)
  cases obj.value with
  | str s => exact replies_bulk s
  | _ => exact replies_wrongType

/-- `DEL` replies a number, behind its loop. -/
theorem replies_cmdDel : Replies throws (cmdDel args) := by
  refine replies_needArgs (by decide) (Writes.bind_silent ?_ fun _ => replies_integer _)
  refine Writes.foldlM (fun count key => (silent_dbDel key).bind_silent fun found => ?_) _ _
  exact Writes.cond (silent_pure _) (silent_pure _)

/-- `EXISTS` replies a number, behind its loop. -/
theorem replies_cmdExists : Replies throws (cmdExists now args) := by
  refine replies_needArgs (by decide) (Writes.bind_silent ?_ fun _ => replies_integer _)
  exact Writes.foldlM (fun count key =>
    writes_withKey (silent_pure _) fun _ => silent_pure _) _ _

/-- `DBSIZE` replies a number. -/
theorem replies_cmdDbsize : Replies throws (cmdDbsize args) :=
  Writes.get_bind (g := fun t => replyInteger (dictSize t.1.dict)) (fun _ _ => rfl)
    fun _ => replies_integer _

/-- `QUIT` replies `OK`. -/
theorem replies_cmdQuit : Replies throws (cmdQuit args) :=
  (replies_simple (by decide)).then_silent fun _ =>
    Writes.modify (g := fun t => (t.1, true)) fun _ _ => rfl

/-- `TYPE` replies one of five words. -/
theorem replies_cmdType : Replies throws (cmdType now args) := by
  refine replies_needArgs (by decide) (writes_withKey (replies_simple (by decide)) fun obj => ?_)
  cases obj.value with
  | _ => exact replies_simple (by decide)

/-- `EXPIRE` replies 0 or 1, unless its seconds do not convert. -/
theorem replies_cmdExpire : Replies true (cmdExpire now args) := by
  refine replies_needArgs (by decide) ((silent_dbGet _).bind_silent fun r => ?_)
  cases r with
  | none => exact replies_integer 0
  | some obj =>
    refine (silent_raise _).bind_silent fun secs => (silent_int64 _).bind_silent fun ms => ?_
    refine (silent_int64 _).bind_silent fun expireAt => ?_
    exact (silent_dbModify _ _).bind_silent fun _ => replies_integer 1

/-- `TTL` replies a number on each of its ways. -/
theorem replies_cmdTtl : Replies throws (cmdTtl now args) := by
  refine replies_needArgs (by decide) ((silent_dbGet _).bind_silent fun r => ?_)
  cases r with
  | none => exact replies_integer _
  | some obj =>
    refine Writes.cond (replies_integer _) ((silent_int64 _).bind_silent fun remaining => ?_)
    refine Writes.cond ?_ ((silent_int64 _).bind_silent fun rounded => replies_integer _)
    exact (silent_dbDel _).bind_silent fun _ => replies_integer _

/-- `PERSIST` replies 0 or 1. -/
theorem replies_cmdPersist : Replies throws (cmdPersist args) := by
  refine replies_needArgs (by decide) ((silent_dbGet _).bind_silent fun r => ?_)
  cases r with
  | none => exact replies_integer 0
  | some obj =>
    refine Writes.cond (replies_integer 0) ?_
    exact (silent_dbModify _ _).bind_silent fun _ => replies_integer 1

/-- `FLUSHDB` replies `OK`. -/
theorem replies_cmdFlushdb : Replies throws (cmdFlushdb args) :=
  Writes.bind_silent (Writes.modify (g := fun t => ({ t.1 with dict := dictNew }, t.2))
    fun _ _ => rfl) fun _ => replies_simple (by decide)

/-- `SELECT` replies `OK`, whatever it is asked for. -/
theorem replies_cmdSelect : Replies throws (cmdSelect args) := replies_simple (by decide)

/-- `KEYS` replies an array of the keys it finds, which it counts before it writes them. -/
theorem replies_cmdKeys : Replies throws (cmdKeys args) :=
  replies_needArgs (by decide) <| Writes.get_bind (g := fun t => do
    let ks := dictEach t.1.dict (keysCb (cstr (arg args 1))) []
    replyArrayHeader ks.length
    ks.forM replyBulk) (fun _ _ => rfl) fun _ => replies_bulks _

/-- `SETNX` replies 0 or 1. -/
theorem replies_cmdSetnx : Replies throws (cmdSetnx now args) :=
  replies_needArgs (by decide) <| writes_withKey
    ((silent_dbSet _ _).bind_silent fun _ => replies_integer 1) fun _ => replies_integer 0

/-- `APPEND` replies the new length. -/
theorem replies_cmdAppend : Replies throws (cmdAppend now args) := by
  refine replies_needArgs (by decide) (writes_withKey ?_ fun obj => ?_)
  · exact (silent_dbSet _ _).bind_silent fun _ => replies_integer _
  cases obj.value with
  | str s => exact (silent_dbModify _ _).bind_silent fun _ => replies_integer _
  | _ => exact replies_wrongType

/-- `STRLEN` replies the length. -/
theorem replies_cmdStrlen : Replies throws (cmdStrlen now args) := by
  refine replies_needArgs (by decide) (writes_withKey (replies_integer 0) fun obj => ?_)
  cases obj.value with
  | str s => exact replies_integer _
  | _ => exact replies_wrongType

/-- `do_incr` replies the sum, or that the text is no integer. -/
theorem replies_doIncr (key : Bytes) (delta : Int) : Replies throws (doIncr now key delta) := by
  refine writes_withKey ?_ fun obj => ?_
  · refine (silent_int64 _).bind_silent fun val => ?_
    exact (silent_dbSet _ _).bind_silent fun _ => replies_integer val
  cases obj.value with
  | str s =>
    refine Writes.cond (replies_error (by decide)) ((silent_int64 _).bind_silent fun val => ?_)
    exact (silent_dbModify _ _).bind_silent fun _ => replies_integer val
  | _ => exact replies_wrongType

/-- `INCR` ends in `do_incr`. -/
theorem replies_cmdIncr : Replies throws (cmdIncr now args) :=
  replies_needArgs (by decide) (replies_doIncr now _ _)

/-- So does `INCRBY`, behind a conversion that may throw. -/
theorem replies_cmdIncrby : Replies true (cmdIncrby now args) :=
  replies_needArgs (by decide) <| (silent_raise _).bind_silent fun _ => replies_doIncr now _ _

/-- So does `DECR`. -/
theorem replies_cmdDecr : Replies throws (cmdDecr now args) :=
  replies_needArgs (by decide) (replies_doIncr now _ _)

/-- So does `DECRBY`, behind a conversion and a negation. -/
theorem replies_cmdDecrby : Replies true (cmdDecrby now args) :=
  replies_needArgs (by decide) <| (silent_raise _).bind_silent fun _ =>
    (silent_int64 _).bind_silent fun _ => replies_doIncr now _ _

/-- A push replies the new length. -/
theorem replies_pushWith (push : List Bytes → Bytes → List Bytes) {name : String}
    (hname : IsLine (ascii name)) : Replies throws (pushWith push name now args) := by
  refine replies_needArgs hname ((silent_getOrCreate _ _ _ _ _).bind_silent fun r => ?_)
  cases r with
  | none => exact replies_wrongType
  | some l => exact (silent_dbModify _ _).bind_silent fun _ => replies_integer _

/-- A pop replies the element, nil, or that the type is wrong. -/
theorem replies_popWith (pop : List Bytes → List Bytes × Option Bytes) {name : String}
    (hname : IsLine (ascii name)) : Replies throws (popWith pop name now args) := by
  refine replies_needArgs hname (writes_withKey replies_nullBulk fun obj => ?_)
  cases obj.value with
  | list l =>
    dsimp only
    rcases pop l with ⟨l', _ | val⟩
    · exact replies_nullBulk
    · -- what follows the reply deletes an emptied list
      refine (silent_dbModify _ _).bind_silent fun _ => (replies_bulk val).then_silent fun _ => ?_
      exact Writes.cond ((silent_dbDel _).bind_silent fun _ => silent_pure _) (silent_pure _)
  | _ => exact replies_nullBulk

/-- `LLEN` replies the length. -/
theorem replies_cmdLlen : Replies throws (cmdLlen now args) := by
  refine replies_needArgs (by decide) (writes_withKey (replies_integer 0) fun obj => ?_)
  cases obj.value with
  | list l => exact replies_integer _
  | _ => exact replies_wrongType

/-- `LRANGE` replies an array of as many elements as it announces. -/
theorem replies_cmdLrange : Replies true (cmdLrange now args) := by
  refine replies_needArgs (by decide) (writes_withKey replies_emptyArray fun obj => ?_)
  cases obj.value with
  | list l =>
    refine (silent_raise _).bind_silent fun start => (silent_raise _).bind_silent fun stop => ?_
    exact replies_bulks _
  | _ => exact replies_wrongType

/-- `LINDEX` replies the element or nil. -/
theorem replies_cmdLindex : Replies true (cmdLindex now args) := by
  refine replies_needArgs (by decide) (writes_withKey replies_nullBulk fun obj => ?_)
  cases obj.value with
  | list l =>
    refine (silent_raise _).bind_silent fun index => ?_
    cases listIndex l index with
    | none => exact replies_nullBulk
    | some val => exact replies_bulk val
  | _ => exact replies_nullBulk

/-- `HSET` replies how many fields are new. -/
theorem replies_cmdHset : Replies throws (cmdHset now args) := by
  refine replies_needPairs (by decide) ((silent_getOrCreate _ _ _ _ _).bind_silent fun r => ?_)
  cases r with
  | none => exact replies_wrongType
  | some h => exact (silent_dbModify _ _).bind_silent fun _ => replies_integer _

/-- `HGET` replies the value or nil. -/
theorem replies_cmdHget : Replies throws (cmdHget now args) := by
  refine replies_needArgs (by decide) (writes_withKey replies_nullBulk fun obj => ?_)
  cases obj.value with
  | hash h =>
    dsimp only
    cases htableGet h (arg args 2) with
    | none => exact replies_nullBulk
    | some val => exact replies_bulk val
  | _ => exact replies_nullBulk

/-- `HDEL` replies how many fields were there. -/
theorem replies_cmdHdel : Replies throws (cmdHdel now args) := by
  refine replies_needArgs (by decide) (writes_withKey (replies_integer 0) fun obj => ?_)
  cases obj.value with
  | hash h => exact (silent_dbModify _ _).bind_silent fun _ => replies_integer _
  | _ => exact replies_integer 0

/-- `HEXISTS` replies 0 or 1. -/
theorem replies_cmdHexists : Replies throws (cmdHexists now args) := by
  refine replies_needArgs (by decide) (writes_withKey (replies_integer 0) fun obj => ?_)
  cases obj.value with
  | hash h => exact replies_integer _
  | _ => exact replies_integer 0

/-- `HLEN` replies the number of fields. -/
theorem replies_cmdHlen : Replies throws (cmdHlen now args) := by
  refine replies_needArgs (by decide) (writes_withKey (replies_integer 0) fun obj => ?_)
  cases obj.value with
  | hash h => exact replies_integer _
  | _ => exact replies_integer 0

/-- **A listing of a hash** announces as many items as it writes: `width` for each entry that it has
collected. -/
theorem replies_hlistWith {width : ℕ} {reply : Bytes × Bytes → Cmd Unit}
    {items : Bytes × Bytes → List Bytes} {name : String} (hname : IsLine (ascii name))
    (hreply : ∀ e, Emits throws (stream respBulk (items e)) (reply e))
    (hwidth : ∀ e, (items e).length = width) :
    Replies throws (hlistWith width reply name now args) := by
  refine replies_needArgs hname (writes_withKey replies_emptyArray fun obj => ?_)
  cases obj.value with
  | hash h => exact replies_arrayOf hreply hwidth _
  | _ => exact replies_emptyArray

variable (libc : Libc)

/-- One addition to a sorted set writes no reply. -/
theorem silent_dbZsetAdd (key : Bytes) (z : ZSet) (member : Bytes) (score : Double) :
    Silent throws (dbZsetAdd libc key z member score) := by
  refine Writes.bind_silent (Writes.modifyGet
    (a := fun t => (zsetAdd libc z member score t.1.coins).1)
    (g := fun t => ({ t.1 with coins := (zsetAdd libc z member score t.1.coins).2 }, t.2))
    fun _ _ => rfl) fun z' => ?_
  exact (silent_dbModify _ _).bind_silent fun _ => silent_pure _

/-- Nor does the loop, which may throw at a score. -/
theorem silent_zaddLoop (key : Bytes) (pairs : List Bytes) (z : ZSet) (added : ℕ) :
    Silent true (zaddLoop libc key z added pairs) := by
  fun_induction zaddLoop libc key z added pairs with
  | case1 z added score member rest ih =>
    refine (silent_raise _).bind_silent fun score => ?_
    exact (silent_dbZsetAdd libc key z member score).bind_silent ih
  | case2 => exact silent_pure _

/-- `ZADD` replies a number, unless a score does not convert. -/
theorem replies_cmdZadd : Replies true (cmdZadd libc now args) := by
  refine replies_needPairs (by decide) ((silent_getOrCreate _ _ _ _ _).bind_silent fun r => ?_)
  cases r with
  | none => exact replies_wrongType
  | some z => exact (silent_zaddLoop libc _ _ z 0).bind_silent fun _ => replies_integer _

/-- `ZSCORE` replies the score as text, or nil. -/
theorem replies_cmdZscore : Replies throws (cmdZscore libc now args) := by
  refine replies_needArgs (by decide) (writes_withKey replies_nullBulk fun obj => ?_)
  cases obj.value with
  | zset z =>
    dsimp only
    cases zsetScore libc z (arg args 2) with
    | none => exact replies_nullBulk
    | some score => exact replies_bulk _
  | _ => exact replies_nullBulk

/-- What `zrangeReply` writes. -/
def zrangeItems (withscores : Bool) (m : Bytes × Double) : List Bytes :=
  if withscores then [cstr m.1, libc.printG17 m.2] else [cstr m.1]

/-- An element of a range is one item, or two with its score. -/
theorem length_zrangeItems (withscores : Bool) (m : Bytes × Double) :
    (zrangeItems libc withscores m).length = if withscores then 2 else 1 := by
  cases withscores <;> rfl

/-- These items are what is written for it. -/
theorem emits_zrangeReply (withscores : Bool) (m : Bytes × Double) :
    Emits throws (stream respBulk (zrangeItems libc withscores m))
      (zrangeReply libc withscores m) := by
  cases withscores with
  | true => exact emits_two _ _
  | false => exact (emits_one _).then_silent fun _ => silent_pure _

/-- The array of `cmd_zrange`. -/
theorem replies_zrangeOut (withscores : Bool) (out : List (Bytes × Double)) :
    Replies throws (do
      replyArrayHeader (if withscores then out.length * 2 else out.length)
      out.forM (zrangeReply libc withscores)) := by
  have hcount : (if withscores then out.length * 2 else out.length) =
      out.length * if withscores then 2 else 1 := by
    cases withscores with
    | true => rfl
    | false => exact (Nat.mul_one _).symm
  rw [hcount]
  exact replies_arrayOf (emits_zrangeReply libc _) (length_zrangeItems libc _) _

/-- `ZRANGE` replies an array of as many items as it announces. -/
theorem replies_cmdZrange : Replies true (cmdZrange libc now args) := by
  refine replies_needArgs (by decide) (writes_withKey replies_emptyArray fun obj => ?_)
  cases obj.value with
  | zset z =>
    refine (silent_raise _).bind_silent fun start => (silent_raise _).bind_silent fun stop => ?_
    exact replies_zrangeOut libc _ _
  | _ => exact replies_emptyArray

/-- `ZRANK` replies a number or nil. -/
theorem replies_cmdZrank : Replies throws (cmdZrank now args) := by
  refine replies_needArgs (by decide) (writes_withKey replies_nullBulk fun obj => ?_)
  cases obj.value with
  | zset z => exact Writes.cond replies_nullBulk (replies_integer _)
  | _ => exact replies_nullBulk

/-- `ZCARD` replies the number of members. -/
theorem replies_cmdZcard : Replies throws (cmdZcard now args) := by
  refine replies_needArgs (by decide) (writes_withKey (replies_integer 0) fun obj => ?_)
  cases obj.value with
  | zset z => exact replies_integer _
  | _ => exact replies_integer 0

/-- `ZREM` replies how many members were there. -/
theorem replies_cmdZrem : Replies throws (cmdZrem libc now args) := by
  refine replies_needArgs (by decide) (writes_withKey (replies_integer 0) fun obj => ?_)
  cases obj.value with
  | zset z => exact (silent_dbModify _ _).bind_silent fun _ => replies_integer _
  | _ => exact replies_integer 0

/-- `SAVE` replies `OK`, or that it could not. -/
theorem replies_cmdSave : Replies throws (cmdSave args) := by
  refine Writes.bind_silent (Writes.modifyGet
    (a := fun t => (rdbSave t.1.fs t.1.dict t.1.rdbPath).2)
    (g := fun t => ({ t.1 with fs := (rdbSave t.1.fs t.1.dict t.1.rdbPath).1 }, t.2))
    fun _ _ => rfl) fun ok => ?_
  exact Writes.cond (replies_simple (by decide)) (replies_error (by decide))

/-- `BGSAVE` replies that it has started, or that it could not. -/
theorem replies_cmdBgsave : Replies throws (cmdBgsave args) := by
  refine Writes.get_bind (g := fun t => if t.1.canFork then do
      modify fun s => { s with children := s.children ++ [s.dict] }
      replySimple "Background saving started"
    else replyError "fork failed") (fun _ _ => rfl) fun t => Writes.cond ?_ ?_
  · refine Writes.bind_silent (Writes.modify
      (g := fun t => ({ t.1 with children := t.1.children ++ [t.1.dict] }, t.2)) fun _ _ => rfl)
      fun _ => replies_simple (by decide)
  · exact replies_error (by decide)

end Handlers

/-! ### Dispatch -/

variable (libc : Libc)

/-- **Every handler** appends one value when it returns, and does the same whatever is in
`write_buf`. -/
theorem replies_handler (now : Int64) (c : Command) (args : List Bytes) :
    Replies c.throws (c.handler libc now args) := by
  cases c with
  | PING => exact replies_cmdPing args
  | ECHO => exact replies_cmdEcho args
  | SET => exact replies_cmdSet args
  | GET => exact replies_cmdGet now args
  | DEL => exact replies_cmdDel args
  | EXISTS => exact replies_cmdExists now args
  | DBSIZE => exact replies_cmdDbsize args
  | QUIT => exact replies_cmdQuit args
  | TYPE => exact replies_cmdType now args
  | EXPIRE => exact replies_cmdExpire now args
  | TTL => exact replies_cmdTtl now args
  | PERSIST => exact replies_cmdPersist args
  | FLUSHDB => exact replies_cmdFlushdb args
  | SELECT => exact replies_cmdSelect args
  | KEYS => exact replies_cmdKeys args
  | SETNX => exact replies_cmdSetnx now args
  | APPEND => exact replies_cmdAppend now args
  | STRLEN => exact replies_cmdStrlen now args
  | INCR => exact replies_cmdIncr now args
  | INCRBY => exact replies_cmdIncrby now args
  | DECR => exact replies_cmdDecr now args
  | DECRBY => exact replies_cmdDecrby now args
  | LPUSH => exact replies_pushWith now args listLpush (by decide)
  | RPUSH => exact replies_pushWith now args listRpush (by decide)
  | LPOP => exact replies_popWith now args listLpop (by decide)
  | RPOP => exact replies_popWith now args listRpop (by decide)
  | LLEN => exact replies_cmdLlen now args
  | LRANGE => exact replies_cmdLrange now args
  | LINDEX => exact replies_cmdLindex now args
  | HSET => exact replies_cmdHset now args
  | HGET => exact replies_cmdHget now args
  | HDEL => exact replies_cmdHdel now args
  | HEXISTS => exact replies_cmdHexists now args
  | HLEN => exact replies_cmdHlen now args
  | HGETALL =>
    exact replies_hlistWith now args (by decide) (fun e => emits_two e.1 e.2) fun _ => rfl
  | HKEYS => exact replies_hlistWith now args (by decide) (fun e => emits_one e.1) fun _ => rfl
  | HVALS => exact replies_hlistWith now args (by decide) (fun e => emits_one e.2) fun _ => rfl
  | ZADD => exact replies_cmdZadd now args libc
  | ZSCORE => exact replies_cmdZscore now args libc
  | ZRANGE => exact replies_cmdZrange now args libc
  | ZRANK => exact replies_cmdZrank now args
  | ZCARD => exact replies_cmdZcard now args
  | ZREM => exact replies_cmdZrem now args libc
  | SAVE => exact replies_cmdSave args
  | BGSAVE => exact replies_cmdBgsave args

/-- The reply to an unknown command. -/
def unknownReply (name : Bytes) : Bytes :=
  ascii "-ERR unknown command '" ++ (name.map tolower ++ (ascii "'" ++ crlf))

/-- A command that is not in the table is answered with an error that names it. -/
theorem emits_unknown (now : Int64) {name : Bytes} (hname : findCommand name = none)
    (args : List Bytes) :
    Emits throws (unknownReply name) (dispatchCommand libc now (name :: args)) := by
  rw [dispatchCommand, hname]
  refine (emits_emit _).bind fun _ r hr => (emits_emit _).bind fun _ r' hr' =>
    (emits_emit _).mono (fun _ he => he) fun _ r'' hr'' => ?_
  rw [hr, hr', hr'']
  rfl

/-- Lower case has as many lines. -/
theorem isLine_map_tolower {name : Bytes} : IsLine (name.map tolower) ↔ IsLine name := by
  -- no letter becomes a CR or a LF, and they stay what they are
  have hlower : ∀ b c : UInt8, b.toNat ≤ 13 → (tolower c = b ↔ c = b) := by
    intro b c hb
    rw [tolower]
    split
    case isTrue h =>
      have hlo : 65 ≤ c.toNat := UInt8.le_iff_toNat_le.mp h.1
      have hhi : c.toNat ≤ 90 := UInt8.le_iff_toNat_le.mp h.2
      have hadd : (c + 32).toNat = c.toNat + 32 := by
        rw [UInt8.toNat_add]
        exact Nat.mod_eq_of_lt (show c.toNat + 32 < 256 by omega)
      refine iff_of_false (fun heq => ?_) fun heq => ?_
      · rw [← heq, hadd] at hb
        omega
      · rw [← heq] at hb
        omega
    case isFalse => exact Iff.rfl
  have hmem : ∀ b : UInt8, b.toNat ≤ 13 → (b ∈ name.map tolower ↔ b ∈ name) := by
    intro b hb
    simp only [List.mem_map, hlower b _ hb, exists_eq_right]
  rw [IsLine, IsLine, hmem 13 (by decide), hmem 10 (by decide)]

/-- The error for an unknown command is one value if and only if its name is one line. -/
theorem isReply_unknown (name : Bytes) : IsReply (unknownReply name) ↔ IsLine name := by
  have hline : unknownReply name =
      ascii "-" ++ (ascii "ERR unknown command '" ++ name.map tolower ++ ascii "'") ++ crlf := by
    have hhead : ascii "-ERR unknown command '" = ascii "-" ++ ascii "ERR unknown command '" := by
      decide
    simp only [unknownReply, hhead, List.append_assoc]
  have hhead : IsLine (ascii "ERR unknown command '") := by decide
  have hquote : IsLine (ascii "'") := by decide
  rw [← isLine_map_tolower]
  constructor
  · rintro ⟨v, hv⟩
    rw [hline] at hv
    -- only errors begin with a minus sign
    have hmark : v.mark = 45 :=
      Option.some.inj (v.head_encode.symm.trans (congrArg List.head? hv))
    cases v with
    | error line =>
      -- its line is the text of the error, and the name is a part of it
      have htext := List.append_cancel_left (List.append_cancel_right hv)
      have hsplit := isLine_append.mp (htext ▸ line.2)
      exact (isLine_append.mp hsplit.1).2
    | simple line => exact absurd hmark (show (43 : UInt8) ≠ 45 by decide)
    | integer n => exact absurd hmark (show (58 : UInt8) ≠ 45 by decide)
    | bulk data => exact absurd hmark (show (36 : UInt8) ≠ 45 by decide)
    | nullBulk => exact absurd hmark (show (36 : UInt8) ≠ 45 by decide)
    | array items => exact absurd hmark (show (42 : UInt8) ≠ 45 by decide)
  · intro hname
    exact ⟨.error ⟨_, (hhead.append hname).append hquote⟩, hline.symm⟩

/-- What `dispatch_command` appends to `write_buf` when it returns. -/
theorem dispatchCommand_appends (now : Int64) (s : Session) (name : Bytes) (args : List Bytes)
    (hreturns : (exec (dispatchCommand libc now (name :: args)) s).1 = .ok ()) :
    ∃ r, (exec (dispatchCommand libc now (name :: args)) s).2.writeBuf = s.writeBuf ++ r ∧
      (IsReply r ↔ findCommand name ≠ none ∨ IsLine name) := by
  -- a run that returns has appended what its triple says
  have hrest : ∀ {P : Unit → Bytes → Prop} {m : Cmd Unit} {throws : Bool},
      Writes Session.at (Allowed throws) P m → (exec m s).1 = .ok () →
      ∃ r, (exec m s).2.writeBuf = s.writeBuf ++ r ∧ P () r := by
    intro P m throws hm hok
    obtain ⟨res, t', r, hexec, hends⟩ := hm (s.toGlobals, s.closing)
    have hs := hexec s.writeBuf
    rw [Session.at_eq] at hs
    rw [hs] at hok ⊢
    obtain rfl : res = .ok () := hok
    exact ⟨r, rfl, hends⟩
  cases hfind : findCommand name with
  | some c =>
    rw [dispatchCommand, hfind] at hreturns ⊢
    obtain ⟨r, hr, hreply⟩ := hrest (replies_handler libc now c (name :: args)) hreturns
    exact ⟨r, hr, iff_of_true hreply (Or.inl (Option.some_ne_none c))⟩
  | none =>
    -- an unknown command: the name stands in its error line
    obtain ⟨r, hr, rfl⟩ := hrest (@emits_unknown true libc now name hfind args) hreturns
    refine ⟨_, hr, (isReply_unknown name).trans ?_⟩
    exact (or_iff_right (not_not.mpr rfl)).symm

/-- **One command, one reply.** A command that returns appends exactly one value of the protocol
to `write_buf` if and only if it is in the table, or its name has no CR and no LF. -/
theorem one_reply_iff (now : Int64) (s : Session) (name : Bytes) (args : List Bytes)
    (hreturns : (exec (dispatchCommand libc now (name :: args)) s).1 = .ok ()) :
    (∃ r, (exec (dispatchCommand libc now (name :: args)) s).2.writeBuf = s.writeBuf ++ r ∧
        IsReply r) ↔
      findCommand name ≠ none ∨ IsLine name := by
  obtain ⟨r, hr, hiff⟩ := dispatchCommand_appends libc now s name args hreturns
  constructor
  · rintro ⟨r', hr', hreply⟩
    obtain rfl : r = r' := List.append_cancel_left (hr.symm.trans hr')
    exact hiff.mp hreply
  · exact fun h => ⟨r, hr, hiff.mpr h⟩

/-- An unknown command whose name is a CR. -/
theorem unknown_command_two_lines :
    let run := exec (dispatchCommand Libc.plain 0 [[13]]) Session.fresh
    run.1 = .ok () ∧
      ¬∃ r, run.2.writeBuf = Session.fresh.writeBuf ++ r ∧ IsReply r := by
  intro run
  have hbuf : run.2.writeBuf = Session.fresh.writeBuf ++ unknownReply [13] := by decide
  refine ⟨by decide, fun ⟨r, hr, hreply⟩ => ?_⟩
  obtain rfl : unknownReply [13] = r := List.append_cancel_left (hbuf.symm.trans hr)
  exact absurd ((isReply_unknown [13]).mp hreply) (by decide)

/-- An unknown command whose name is a word. -/
theorem one_reply_unknown :
    ∃ r, (exec (dispatchCommand Libc.plain 0 [ascii "FOO"]) Session.fresh).2.writeBuf =
      Session.fresh.writeBuf ++ r ∧ IsReply r :=
  (one_reply_iff Libc.plain 0 Session.fresh (ascii "FOO") [] (by decide)).mpr
    (Or.inr (by decide))

/-! ### Staying in step -/

/-- Where lines end does not depend on what follows. -/
theorem line_cancel {l l' x y : Bytes} (hl : 13 ∉ l) (hl' : 13 ∉ l')
    (h : l ++ crlf ++ x = l' ++ crlf ++ y) : l = l' ∧ x = y := by
  have hindex := congrArg crlfIndex h
  rw [crlfIndex_line hl, crlfIndex_line hl'] at hindex
  rw [List.append_assoc, List.append_assoc] at h
  obtain ⟨hline, hrest⟩ := List.append_inj h (Option.some.inj hindex)
  exact ⟨hline, List.append_cancel_left hrest⟩

/-- A header says where it ends, so equal bytes begin with equal headers. -/
theorem header_cancel {mark : UInt8} (hmark : mark ≠ 13) {n m : ℕ} {x y : Bytes}
    (h : header mark n ++ x = header mark m ++ y) : n = m ∧ x = y := by
  obtain ⟨hline, hrest⟩ := line_cancel (not_mem_line (by decide) hmark.symm)
    (not_mem_line (by decide) hmark.symm) h
  exact ⟨decimal_injective (List.cons.inj hline).2, hrest⟩

/-- So does a bulk string. -/
theorem respBulk_cancel {a b x y : Bytes} (h : respBulk a ++ x = respBulk b ++ y) :
    a = b ∧ x = y := by
  simp only [respBulk_eq, List.append_assoc] at h
  obtain ⟨hlen, hrest⟩ := header_cancel bulk_mark.1 h
  obtain ⟨hdata, hrest⟩ := List.append_inj hrest hlen
  exact ⟨hdata, List.append_cancel_left hrest⟩

/-- And equally many of them, one after the other. -/
theorem stream_respBulk_cancel {as bs : List Bytes} (hlen : as.length = bs.length) {x y : Bytes}
    (h : stream respBulk as ++ x = stream respBulk bs ++ y) : as = bs ∧ x = y := by
  induction as generalizing bs with
  | nil =>
    obtain rfl := List.length_eq_zero_iff.mp hlen.symm
    exact ⟨rfl, h⟩
  | cons a as ih =>
    -- the arrays have one length, so they end together
    cases bs with
    | nil => cases hlen
    | cons b bs =>
      rw [stream_cons, stream_cons, List.append_assoc, List.append_assoc] at h
      obtain ⟨rfl, hrest⟩ := respBulk_cancel h
      obtain ⟨rfl, hend⟩ := ih (Nat.succ.inj hlen) hrest
      exact ⟨rfl, hend⟩

/-- A number has no byte of a line end in it. -/
theorem isLine_decimalInt (n : Int) : 13 ∉ ascii ":" ++ decimalInt n := by
  have hdigits : ∀ m, 13 ∉ decimal m := fun m hmem => by
    have hdigit := isdigit_of_mem_decimal hmem
    exact absurd hdigit (by decide)
  have hcolon : (13 : UInt8) ∉ ascii ":" := by decide
  have hminus : (13 : UInt8) ∉ ascii "-" := by decide
  rw [decimalInt, List.mem_append, not_or]
  refine ⟨hcolon, ?_⟩
  split
  · rw [List.mem_append, not_or]
    exact ⟨hminus, hdigits _⟩
  · exact hdigits _

/-- Behind the same text comes the same rest. -/
theorem line_encode_cancel {l k x y : Bytes} (hl : 13 ∉ l) (hk : 13 ∉ k)
    (h : l ++ crlf ++ x = k ++ crlf ++ y) : l ++ crlf = k ++ crlf ∧ x = y := by
  obtain ⟨rfl, hrest⟩ := line_cancel hl hk h
  exact ⟨rfl, hrest⟩

/-- The null bulk string does not begin a bulk string. -/
theorem nullBulk_ne_bulk {data x y : Bytes} :
    RespValue.nullBulk.encode ++ x ≠ (RespValue.bulk data).encode ++ y := by
  intro h
  have hbulk : (RespValue.bulk data).encode = header 36 data.length ++ (data ++ crlf) :=
    respBulk_eq data
  rw [hbulk, List.append_assoc] at h
  obtain ⟨hline, -⟩ := line_cancel (by decide : 13 ∉ ascii "$-1")
    (not_mem_line (by decide) bulk_mark.1.symm) h
  -- a number does not begin with a minus sign
  obtain ⟨b, bs, hdec, hdigit⟩ := decimal_eq_cons data.length
  rw [hdec] at hline
  obtain rfl : 45 = b := (List.cons.inj (List.cons.inj hline).2).1
  exact absurd hdigit (by decide)

/-- **No value begins another one**: where a value ends does not depend on what follows. -/
theorem RespValue.encode_cancel {v w : RespValue} {x y : Bytes}
    (h : v.encode ++ x = w.encode ++ y) : v.encode = w.encode ∧ x = y := by
  -- the first byte tells the kind of the value
  have hmark : v.mark = w.mark := by
    have hhead := congrArg List.head? h
    rw [List.head?_append, List.head?_append, v.head_encode, w.head_encode] at hhead
    exact Option.some.inj hhead
  cases v with
  | simple l =>
    cases w with
    | simple k =>
      exact line_encode_cancel (IsLine.append (by decide) l.2).1 (IsLine.append (by decide) k.2).1 h
    | _ => simp [RespValue.mark] at hmark
  | error l =>
    cases w with
    | error k =>
      exact line_encode_cancel (IsLine.append (by decide) l.2).1 (IsLine.append (by decide) k.2).1 h
    | _ => simp [RespValue.mark] at hmark
  | integer n =>
    cases w with
    | integer m => exact line_encode_cancel (isLine_decimalInt n) (isLine_decimalInt m) h
    | _ => simp [RespValue.mark] at hmark
  | bulk a =>
    cases w with
    | bulk b =>
      obtain ⟨rfl, hrest⟩ := respBulk_cancel h
      exact ⟨rfl, hrest⟩
    | nullBulk => exact absurd h.symm nullBulk_ne_bulk
    | _ => simp [RespValue.mark] at hmark
  | nullBulk =>
    cases w with
    | bulk b => exact absurd h nullBulk_ne_bulk
    | nullBulk => exact ⟨rfl, List.append_cancel_left h⟩
    | _ => simp [RespValue.mark] at hmark
  | array as =>
    cases w with
    | array bs =>
      rw [RespValue.encode, RespValue.encode, List.append_assoc, List.append_assoc] at h
      obtain ⟨hlen, hrest⟩ := header_cancel array_mark.1 h
      obtain ⟨rfl, hend⟩ := stream_respBulk_cancel hlen hrest
      exact ⟨rfl, hend⟩
    | _ => simp [RespValue.mark] at hmark

/-- **Staying in step.** Who reads as many values as there are commands has read the reply of
each command, and stands in front of what comes next. -/
theorem replies_in_step {vs ws : List RespValue} (hlen : vs.length = ws.length) {x y : Bytes}
    (h : stream RespValue.encode vs ++ x = stream RespValue.encode ws ++ y) :
    vs.map RespValue.encode = ws.map RespValue.encode ∧ x = y := by
  induction vs generalizing ws with
  | nil =>
    obtain rfl := List.length_eq_zero_iff.mp hlen.symm
    exact ⟨rfl, h⟩
  | cons v vs ih =>
    cases ws with
    | nil => cases hlen
    | cons w ws =>
      rw [stream_cons, stream_cons, List.append_assoc, List.append_assoc] at h
      -- the first reply ends in the same place for both, and so does each one behind it
      obtain ⟨hvw, hrest⟩ := RespValue.encode_cancel h
      obtain ⟨hall, hend⟩ := ih (Nat.succ.inj hlen) hrest
      exact ⟨by rw [List.map_cons, List.map_cons, hvw, hall], hend⟩

/-- **Pipelines.** Commands of which each is in the table or has a name of one line, executed one
after the other, append one value each. -/
theorem pipeline_replies (clock : ℕ → Int64) {cmds : List (List Bytes)}
    (hcmds : ∀ cmd ∈ cmds, cmd ≠ [] ∧ (findCommand (arg cmd 0) ≠ none ∨ IsLine (arg cmd 0)))
    (n : ℕ) (s : Session) (hreturns : (dispatchAll libc clock n s cmds).1 = .ok ()) :
    ∃ vs : List RespValue, vs.length = cmds.length ∧
      (dispatchAll libc clock n s cmds).2.writeBuf =
        s.writeBuf ++ stream RespValue.encode vs := by
  induction cmds generalizing n s with
  | nil => exact ⟨[], rfl, (List.append_nil _).symm⟩
  | cons cmd cmds ih =>
    obtain ⟨hne, hname⟩ := hcmds cmd List.mem_cons_self
    obtain ⟨name, args, rfl⟩ := List.exists_cons_of_ne_nil hne
    rw [dispatchAll] at hreturns ⊢
    -- what the first command appends is one value, and the others go on from its state
    rcases hexec : exec (dispatchCommand libc (clock n) (name :: args)) s with ⟨_ | u, s'⟩
    · rw [hexec] at hreturns
      cases hreturns
    · rw [hexec] at hreturns
      obtain ⟨r, hr, hiff⟩ := dispatchCommand_appends libc (clock n) s name args
        (by rw [hexec])
      obtain ⟨v, hv⟩ := hiff.mpr hname
      obtain ⟨vs, hlen, hbuf⟩ :=
        ih (fun c hc => hcmds c (List.mem_cons_of_mem _ hc)) (n + 1) s' hreturns
      refine ⟨v :: vs, by rw [List.length_cons, List.length_cons, hlen], ?_⟩
      rw [hexec] at hr
      dsimp only at hr ⊢
      rw [hbuf, hr, stream_cons, hv, List.append_assoc]

end Minired
