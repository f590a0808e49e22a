import Minired.Lib.Refinement
import Minired.CountReplies
import Minired.Increments
import Minired.FailedCommands

/-!
# The keyspace

What the server is for, without its tables, skip lists and coins: a `Keyspace` is a function from
keys to entries, and an entry is a content with a deadline. A hash is a function from fields to
values, a sorted set one from members to scores.

`Keyspace.execute` says of every command what it makes of a keyspace and which replies it may give.
Most commands look at what is live of one key and change its content: `Command.onContent` says for
each type of values what comes of it, on a missing key too. The commands on deadlines look at the
stored entry, whether it is live or not.

A reply is a set of byte strings. It has one element except where the code replies in the order of
its tables: `HGETALL`, `HKEYS`, `HVALS` and `KEYS`, and, when the snapshot may fail, `SAVE` and
`BGSAVE`. Commands with numbers are specified for texts that convert.

`Keyspace.Step` adds the thread that sweeps: it may remove a key that has expired at any time.
A `check_expiry` of this thread is one step here; what comes of a command in the middle of one is
`sweep_keeps_write_iff`.
-/

namespace Minired

open Refinement Relational

/-- What a value is to a client. -/
inductive Content
  | str (s : Bytes)
  | list (l : List Bytes)
  | hash (m : Bytes → Option Bytes)
  | zset (m : Bytes → Option Double)

/-- A content, and the time from which on it is expired. -/
structure Entry where
  content : Content
  deadline : Option ℤ

/-- The entry has expired. -/
def Entry.expired (now : ℤ) (e : Entry) : Bool := e.deadline.any fun t => t ≤ now

/-- The entries of the keys. -/
abbrev Keyspace := Bytes → Option Entry

/-- The entry of a key, if it is live. -/
def Keyspace.live (now : ℤ) (σ : Keyspace) (key : Bytes) : Option Entry :=
  (σ key).filter fun e => !e.expired now

/-! ### Partial functions -/

/-- The size of a partial function. -/
noncomputable def size {β : Type} (m : Bytes → Option β) : ℕ := {k | m k ≠ none}.ncard

/-- The partial function without some keys. -/
def dropKeys {β : Type} (keys : List Bytes) (m : Bytes → Option β) (k : Bytes) : Option β :=
  if k ∈ keys then none else m k

/-- The pairs of the partial function in some order, as many as fit. -/
structure Lists {β : Type} (m : Bytes → Option β) (max : ℕ) (ps : List (Bytes × β)) : Prop where
  nodup : (ps.map Prod.fst).Nodup
  mem : ∀ p ∈ ps, m p.1 = some p.2
  length : ps.length = min max (size m)

/-- The pairs of a sorted set, in its order. -/
structure InOrder (m : Bytes → Option Double) (C : List (Bytes × Double)) : Prop where
  sorted : C.Pairwise scoreLess
  mem : ∀ c, c ∈ C ↔ m c.1 = some c.2

/-- The elements between two bounds, which count from the end when they are negative. -/
def between {β : Type} (xs : List β) (start stop : ℤ) (max : ℕ) : List β :=
  (xs.drop (rangeLow xs.length start).toNat).take
    (min (rangeHigh xs.length stop - rangeLow xs.length start + 1).toNat max)

/-! ### Arguments and replies -/

/-- The number that `std::stoll` makes of a text. -/
def number (text : Bytes) : ℤ := (stoll text).toOption.getD 0

/-- Arguments in pairs. -/
def argPairs : List Bytes → List (Bytes × Bytes)
  | a :: b :: rest => (a, b) :: argPairs rest
  | _ => []

/-- The reply is the value. -/
def answer (v : RespValue) : Set Bytes := {v.encode}

/-- The reply is a line. -/
def answerLine (line : String) : Set Bytes := {ascii "+" ++ ascii line ++ crlf}

/-- The reply is an error. -/
def refuse (msg : Bytes) : Set Bytes := {ascii "-ERR " ++ msg ++ crlf}

/-- The reply to `SAVE`, when it has succeeded or not. -/
def saveReply (ok : Bool) : Bytes :=
  if ok then ascii "+" ++ ascii "OK" ++ crlf else ascii "-ERR " ++ ascii "snapshot failed" ++ crlf

/-- The reply to `BGSAVE`, when the `fork` has succeeded or not. -/
def bgsaveReply (ok : Bool) : Bytes :=
  if ok then ascii "+" ++ ascii "Background saving started" ++ crlf
  else ascii "-ERR " ++ ascii "fork failed" ++ crlf

/-! ### The commands on the content of one key -/

/-- What becomes of the content of a key, and the replies. -/
abbrev Effect (α : Type) := Option α → Option α × Set Bytes

/-- A command on values of one type, on a content of any type. -/
def typed {α : Type} (c : Command) (wrap : α → Content) (unwrap : Content → Option α)
    (f : Effect α) : Effect Content
  | none => ((f none).1.map wrap, (f none).2)
  | some x =>
    match unwrap x with
    | some a => ((f (some a)).1.map wrap, (f (some a)).2)
    | none => (some x, {c.mismatchReply})

/-- The text, if it is a string. -/
def Content.str? : Content → Option Bytes
  | .str s => some s
  | _ => none

/-- The elements, if it is a list. -/
def Content.list? : Content → Option (List Bytes)
  | .list l => some l
  | _ => none

/-- The fields, if it is a hash. -/
def Content.hash? : Content → Option (Bytes → Option Bytes)
  | .hash m => some m
  | _ => none

/-- The members, if it is a sorted set. -/
def Content.zset? : Content → Option (Bytes → Option Double)
  | .zset m => some m
  | _ => none

section Effects

variable (libc : Libc) (args : List Bytes)

/-- Counting; a missing key counts as the empty string, which counts as zero. -/
def bump (delta : ℤ) (s : Option Bytes) : Option Bytes × Set Bytes :=
  let text := s.getD []
  let sum := (strtoll text).1 + delta
  if (strtoll text).2.headD 0 = 0 then (some (decimalInt sum), answer (.integer sum))
  else (s, refuse (ascii "value is not an integer or out of range"))

/-- The commands on strings; a missing key counts as the empty string. -/
def Command.onString (c : Command) (s : Option Bytes) : Option Bytes × Set Bytes :=
  let text := s.getD []
  match c with
  | .GET => (s, answer (.ofOption s))
  | .STRLEN => (s, answer (.integer text.length))
  | .APPEND => (some (text ++ arg args 2), answer (.integer (text ++ arg args 2).length))
  | c => bump ((c.increment args).getD 0) s

/-- The commands on lists; a missing key counts as the empty list. -/
def Command.onList (c : Command) (l : Option (List Bytes)) : Option (List Bytes) × Set Bytes :=
  let elements := l.getD []
  match c with
  | .LPUSH =>
    let pushed := (args.drop 2).reverse ++ elements
    (some pushed, answer (.integer pushed.length))
  | .RPUSH =>
    let pushed := elements ++ args.drop 2
    (some pushed, answer (.integer pushed.length))
  | .LPOP =>
    (l.bind fun l => if l.length = 1 then none else some l.tail, answer (.ofOption elements.head?))
  | .RPOP =>
    (l.bind fun l => if l.length = 1 then none else some l.dropLast,
      answer (.ofOption elements.getLast?))
  | .LRANGE =>
    (l, answer (.array
      (between elements (number (arg args 2)) (number (arg args 3)) LRANGE_BUFFER)))
  | .LINDEX => (l, answer (.ofOption (listIndex elements (number (arg args 2)))))
  | _ => (l, answer (.integer elements.length))

/-- The commands on hashes; a missing key counts as the empty hash. -/
noncomputable def Command.onHash (c : Command) (h : Option (Bytes → Option Bytes)) :
    Option (Bytes → Option Bytes) × Set Bytes :=
  let m := h.getD fun _ => none
  match c with
  | .HSET =>
    let m' := fun field => (lastValue (argPairs (args.drop 2)) field).or (m field)
    (some m', answer (.integer (size m' - size m)))
  | .HDEL =>
    (h.map (dropKeys (args.drop 2)), answer (.integer (size m - size (dropKeys (args.drop 2) m))))
  | .HGET => (h, answer (.ofOption (m (arg args 2))))
  | .HEXISTS => (h, answer (.integer (if (m (arg args 2)).isSome then 1 else 0)))
  | .HGETALL =>
    (h, {r | ∃ ps, Lists m ENTRY_BUFFER ps ∧ r ∈ answer (.array (ps.flatMap fun p => [p.1, p.2]))})
  | .HKEYS => (h, {r | ∃ ps, Lists m ENTRY_BUFFER ps ∧ r ∈ answer (.array (ps.map Prod.fst))})
  | .HVALS => (h, {r | ∃ ps, Lists m ENTRY_BUFFER ps ∧ r ∈ answer (.array (ps.map Prod.snd))})
  | _ => (h, answer (.integer (size m)))

/-- `ZRANGE` with the scores. -/
def withScores : Bool :=
  decide (args.length ≥ 5) && (cstr (arg args 4)).map tolower = ascii "withscores"

/-- The commands on sorted sets; a missing key counts as the empty set. Members are C strings to
`ZRANK`. -/
noncomputable def Command.onZSet (c : Command) (z : Option (Bytes → Option Double)) :
    Option (Bytes → Option Double) × Set Bytes :=
  let m := z.getD fun _ => none
  match c with
  | .ZADD =>
    let added := convertedPairs libc (args.drop 2)
    (some (added.foldl setScore m), answer (.integer added.length))
  | .ZREM =>
    (z.map (dropKeys (args.drop 2)), answer (.integer (size m - size (dropKeys (args.drop 2) m))))
  | .ZSCORE => (z, answer (.ofOption ((m (arg args 2)).map libc.printG17)))
  | .ZRANGE =>
    (z, {r | ∃ C, InOrder m C ∧ r ∈ answer (.array
      ((between C (number (arg args 2)) (number (arg args 3)) ENTRY_BUFFER).flatMap fun c =>
        if withScores args then [c.1, libc.printG17 c.2] else [c.1]))})
  | .ZRANK =>
    (z, answer ((m (cstr (arg args 2))).elim .nullBulk fun score =>
      .integer (rankIn m (cstr (arg args 2), score))))
  | _ => (z, answer (.integer (size m)))

/-- The command, on what is live of its key. -/
noncomputable def Command.onContent (c : Command) : Effect Content :=
  match c with
  | .TYPE => fun x => (x, answerLine (match x with
    | none => "none"
    | some (.str _) => "string"
    | some (.list _) => "list"
    | some (.hash _) => "hash"
    | some (.zset _) => "zset"))
  | .SETNX => fun x =>
    (x.or (some (.str (arg args 2))), answer (.integer (if x.isSome then 0 else 1)))
  | c =>
    if c.valueType = some 0 then typed c .str Content.str? (c.onString args)
    else if c.valueType = some 1 then typed c .list Content.list? (c.onList args)
    else if c.valueType = some 2 then typed c .hash Content.hash? (c.onHash args)
    else typed c .zset Content.zset? (c.onZSet libc args)

end Effects

/-! ### Every command -/

/-- The number of arguments that the command needs, its name included. -/
def Command.arity : Command → ℕ
  | .PING | .DBSIZE | .QUIT | .FLUSHDB | .SELECT | .SAVE | .BGSAVE => 0
  | .HSET | .ZADD | .LRANGE | .ZRANGE => 4
  | .SET | .EXPIRE | .SETNX | .APPEND | .INCRBY | .DECRBY | .LPUSH | .RPUSH | .LINDEX => 3
  | .HGET | .HDEL | .HEXISTS | .ZSCORE | .ZRANK | .ZREM => 3
  | _ => 2

/-- Behind the key, the arguments come in pairs. -/
def Command.inPairs (c : Command) : Bool := c = .HSET || c = .ZADD

/-- The command takes a snapshot. -/
def Command.isSave (c : Command) : Bool := c = .SAVE || c = .BGSAVE

namespace Keyspace

/-- The entry of one key, and the others as they were. -/
def set (σ : Keyspace) (key : Bytes) (e : Option Entry) : Keyspace := Function.update σ key e

/-- A command on what is live of a key. A content that was there keeps its deadline. -/
def onKey (now : ℤ) (σ : Keyspace) (key : Bytes) (f : Effect Content) : Keyspace × Set Bytes :=
  let e := σ.live now key
  let r := f (e.map Entry.content)
  (σ.set key (r.1.map fun x => ⟨x, e.bind Entry.deadline⟩), r.2)

/-- `EXPIRE`. The deadline 0 is none. -/
def expire (now : ℤ) (σ : Keyspace) (key : Bytes) (secs : ℤ) : Keyspace × Set Bytes :=
  match σ key with
  | none => (σ, answer (.integer 0))
  | some e =>
    let t := now + secs * 1000
    (σ.set key (some { e with deadline := if t = 0 then none else some t }), answer (.integer 1))

/-- `TTL`. The seconds are rounded up. -/
def ttl (now : ℤ) (σ : Keyspace) (key : Bytes) : Keyspace × Set Bytes :=
  match σ key with
  | none => (σ, answer (.integer (-2)))
  | some e =>
    match e.deadline with
    | none => (σ, answer (.integer (-1)))
    | some t =>
      if t ≤ now then (σ.set key none, answer (.integer (-2)))
      else (σ, answer (.integer ⌈((t - now : ℤ) : ℚ) / 1000⌉))

/-- `PERSIST`. -/
def persist (σ : Keyspace) (key : Bytes) : Keyspace × Set Bytes :=
  match σ key with
  | none => (σ, answer (.integer 0))
  | some e =>
    if e.deadline = none then (σ, answer (.integer 0))
    else (σ.set key (some { e with deadline := none }), answer (.integer 1))

variable (libc : Libc) (now : ℤ)

/-- **The command** with enough arguments. -/
noncomputable def execute (c : Command) (args : List Bytes) (σ : Keyspace) :
    Keyspace × Set Bytes :=
  match c with
  | .PING => (σ, if args.length = 1 then answerLine "PONG" else answer (.bulk (arg args 1)))
  | .ECHO => (σ, answer (.bulk (arg args 1)))
  | .SET => (σ.set (arg args 1) (some ⟨.str (arg args 2), none⟩), answerLine "OK")
  | .DEL => (dropKeys args.tail σ, answer (.integer (size σ - size (dropKeys args.tail σ))))
  | .EXISTS => (fun k => if k ∈ args.tail then σ.live now k else σ k,
    answer (.integer (args.tail.countP fun k => (σ.live now k).isSome)))
  | .DBSIZE => (σ, answer (.integer (size σ)))
  | .QUIT | .SELECT => (σ, answerLine "OK")
  | .EXPIRE => σ.expire now (arg args 1) (number (arg args 2))
  | .TTL => σ.ttl now (arg args 1)
  | .PERSIST => σ.persist (arg args 1)
  | .FLUSHDB => (fun _ => none, answerLine "OK")
  | .KEYS => (σ, {r | ∃ keys : List Bytes, keys.Nodup ∧
    (∀ k, k ∈ keys ↔ σ k ≠ none ∧ globMatch (cstr (arg args 1)) (cstr k) = true) ∧
    r ∈ answer (.array keys)})
  | .SAVE => (σ, Set.range saveReply)
  | .BGSAVE => (σ, Set.range bgsaveReply)
  | c => σ.onKey now (arg args 1) (c.onContent libc args)

/-- **A call of `dispatch_command`.** -/
noncomputable def dispatch (args : List Bytes) (σ : Keyspace) : Keyspace × Set Bytes :=
  match args with
  | [] => (σ, {[]})
  | name :: _ =>
    match findCommand name with
    | none => (σ, {unknownReply name})
    | some c =>
      if args.length < c.arity ∨ c.inPairs = true ∧ args.length % 2 ≠ 0 then
        (σ, refuse (ascii "wrong number of arguments for '" ++ c.name ++ ascii "'"))
      else execute libc now c args σ

end Keyspace

/-- What happens to the store: a command, or a `check_expiry` of the sweep, each at its time. -/
inductive StoreEvent
  | command (now : Int64) (args : List Bytes)
  | sweep (now : Int64) (key : Bytes)

/-- **The specification of the store.** The sweep removes a key if it has expired. -/
inductive Keyspace.Step (libc : Libc) : Spec Keyspace StoreEvent Bytes
  | command {σ : Keyspace} {now : Int64} {args : List Bytes} {reply : Bytes}
      (hreply : reply ∈ (σ.dispatch libc now.toInt args).2) :
      Step libc σ (.command now args) reply (σ.dispatch libc now.toInt args).1
  | sweep {σ : Keyspace} {now : Int64} {key : Bytes} :
      Step libc σ (.sweep now key) [] (σ.set key (σ.live now.toInt key))

/-! ### The code's store -/

/-- **A step of the code**: a call of `dispatch_command` that returns, and its reply, or a call of
`check_expiry` in `sweep_loop`. -/
inductive Globals.Step (libc : Libc) : Spec Globals StoreEvent Bytes
  | command {g : Globals} {now : Int64} {args : List Bytes} {s : Session}
      (hrun : exec (dispatchCommand libc now args) { g with writeBuf := [], closing := false } =
        (.ok (), s)) : Step libc g (.command now args) s.writeBuf s.toGlobals
  | sweep {g : Globals} {now : Int64} {key : Bytes} :
      Step libc g (.sweep now key) [] { g with dict := (checkExpiry now g.dict key).1 }

/-- The value represents the content. -/
def ValueRel (libc : Libc) : Value → Content → Prop
  | .str s, .str t => s = t
  | .list l, .list k => l = k
  | .hash h, .hash m => DictRel h m
  | .zset z, .zset m => ZRel libc z m
  | _, _ => False

/-- A deadline as it is stored; 0 is none. -/
def deadlineOf (expireAtMs : Int64) : Option ℤ :=
  if expireAtMs = 0 then none else some expireAtMs.toInt

/-- The object represents the entry. -/
structure EntryRel (libc : Libc) (o : Obj) (e : Entry) : Prop where
  content : ValueRel libc o.value e.content
  deadline : deadlineOf o.expireAtMs = e.deadline

/-- The database represents the keyspace. -/
structure StoreRel (libc : Libc) (d : Dict Obj) (σ : Keyspace) : Prop where
  wf : d.WF
  get : ∀ k, Option.Rel (EntryRel libc) (dictGet d k) (σ k)

/-- What the callers of `ZADD` keep to: members are C strings, and scores are numbers. -/
def PlainArgs (libc : Libc) (args : List Bytes) : Prop :=
  findCommand (arg args 0) = some .ZADD →
    ∀ p ∈ convertedPairs libc (args.drop 2), NulFree p.1 ∧ p.2.isNaN = false

/-- The command of the event, if it is one, is plain. -/
def StoreEvent.Plain (libc : Libc) : StoreEvent → Prop
  | .command _ args => PlainArgs libc args
  | .sweep _ _ => True

end Minired
