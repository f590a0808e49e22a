import Minired.LiveKey
import Minired.ExpiredKeys

/-!
# Keys of another type

Every handler that works on values of one type tests the type of what it finds, and says so by
hand. Thirteen of them reply the error `WRONGTYPE` when it is another type; the other fifteen take
the key for a missing one, and reply null, zero or an empty array, which hides the mistake of the
client. `Command.mismatchReply` is the reply of each (`exec_mismatch`), and nothing else changes.

Four of the handlers are `do_incr` with a number that `Command.increment` reads from the arguments
(`exec_increment`). One of them does not always come to the test: `DECRBY` negates its argument
first, which overflows for `-2 ^ 63`.
-/

namespace Minired

open Relational

variable {libc : Libc} {now : Int64} {s : Session} {args : List Bytes}

/-- The type of the values that the command works on. -/
def Command.valueType : Command → Option UInt8
  | .GET | .APPEND | .STRLEN | .INCR | .INCRBY | .DECR | .DECRBY => some 0
  | .LPUSH | .RPUSH | .LPOP | .RPOP | .LLEN | .LRANGE | .LINDEX => some 1
  | .HSET | .HGET | .HDEL | .HEXISTS | .HLEN | .HGETALL | .HKEYS | .HVALS => some 2
  | .ZADD | .ZSCORE | .ZRANGE | .ZRANK | .ZCARD | .ZREM => some 3
  | _ => none

/-- The handler lets the number of arguments pass. -/
def Command.ValidCount (c : Command) (args : List Bytes) : Prop :=
  match c with
  | .HSET | .ZADD => 4 ≤ args.length ∧ args.length % 2 = 0
  | .LRANGE | .ZRANGE => 4 ≤ args.length
  | .APPEND | .INCRBY | .DECRBY | .LPUSH | .RPUSH | .LINDEX => 3 ≤ args.length
  | .HGET | .HDEL | .HEXISTS | .ZSCORE | .ZRANK | .ZREM => 3 ≤ args.length
  | _ => 2 ≤ args.length

/-- The number that the handler converts before it looks at the key is well formed. -/
def Command.NumberOk (c : Command) (args : List Bytes) : Prop :=
  match c with
  | .INCRBY | .DECRBY => ∃ n, stoll (arg args 2) = .ok n
  | _ => True

/-- The handlers that reply `WRONGTYPE`. -/
def Command.checksType : Command → Bool
  | .GET | .APPEND | .STRLEN | .INCR | .INCRBY | .DECR | .DECRBY => true
  | .LPUSH | .RPUSH | .LLEN | .LRANGE | .HSET | .ZADD => true
  | _ => false

/-- The negation of the argument overflows. -/
def Command.Overflows (c : Command) (args : List Bytes) : Prop :=
  c = .DECRBY ∧ stoll (arg args 2) = .ok (-2 ^ 63)

/-- The error on the wire. -/
def wrongTypeReply : Bytes :=
  ascii "-ERR " ++ ascii "WRONGTYPE Operation against a key holding the wrong kind of value" ++ crlf

/-- What the command replies on a key of another type. -/
def Command.mismatchReply : Command → Bytes
  | .LPOP | .RPOP | .LINDEX | .HGET | .ZSCORE | .ZRANK => ascii "$-1" ++ crlf
  | .HDEL | .HEXISTS | .HLEN | .ZCARD | .ZREM => ascii ":" ++ decimalInt 0 ++ crlf
  | .HGETALL | .HKEYS | .HVALS | .ZRANGE => ascii "*" ++ decimal 0 ++ crlf
  | _ => wrongTypeReply

/-! ### The commands that count -/

/-- What the commands that count add to the number. -/
def Command.increment (c : Command) (args : List Bytes) : Option Int :=
  match c with
  | .INCR => some 1
  | .DECR => some (-1)
  | .INCRBY => (stoll (arg args 2)).toOption
  | .DECRBY => (stoll (arg args 2)).toOption.map fun n => -n
  | _ => none

/-- The four commands and what they add. -/
theorem increment_cases {c : Command} {delta : Int} (h : c.increment args = some delta) :
    c = .INCR ∧ delta = 1 ∨ c = .DECR ∧ delta = -1 ∨
      c = .INCRBY ∧ stoll (arg args 2) = .ok delta ∨
      c = .DECRBY ∧ ∃ n, stoll (arg args 2) = .ok n ∧ delta = -n := by
  have hstoll : ∀ n, (stoll (arg args 2)).toOption = some n → stoll (arg args 2) = .ok n := by
    intro n hn
    cases hresult : stoll (arg args 2) with
    | error e =>
      rw [hresult] at hn
      cases hn
    | ok m =>
      rw [hresult] at hn
      exact congrArg _ (Option.some.inj hn)
  cases c with
  | INCR => exact Or.inl ⟨rfl, (Option.some.inj h).symm⟩
  | DECR => exact Or.inr (Or.inl ⟨rfl, (Option.some.inj h).symm⟩)
  | INCRBY => exact Or.inr (Or.inr (Or.inl ⟨rfl, hstoll delta h⟩))
  | DECRBY =>
    obtain ⟨n, hn, hneg⟩ := Option.map_eq_some_iff.mp h
    exact Or.inr (Or.inr (Or.inr ⟨rfl, n, hstoll n hn, hneg.symm⟩))
  | _ => cases h

/-- What is added is a `long long`, if it can be negated where it has to be. -/
theorem fits_increment {c : Command} {delta : Int} (hdelta : c.increment args = some delta)
    (hover : ¬c.Overflows args) : LLONG_MIN ≤ delta ∧ delta ≤ LLONG_MAX := by
  obtain ⟨rfl, rfl⟩ | ⟨rfl, rfl⟩ | ⟨rfl, hstoll⟩ | ⟨rfl, n, hstoll, rfl⟩ := increment_cases hdelta
  · decide
  · decide
  · exact stoll_bounds hstoll
  · have hne : n ≠ -2 ^ 63 := fun heq => hover ⟨rfl, heq ▸ hstoll⟩
    have hbounds := stoll_bounds hstoll
    unfold LLONG_MIN LLONG_MAX at *
    omega

/-- A well-formed number can be added. -/
theorem exists_increment {c : Command} (hc : c = .INCR ∨ c = .INCRBY ∨ c = .DECR ∨ c = .DECRBY)
    (hnumber : c.NumberOk args) : ∃ delta, c.increment args = some delta := by
  obtain rfl | rfl | rfl | rfl := hc
  · exact ⟨1, rfl⟩
  · obtain ⟨n, hn⟩ := hnumber
    exact ⟨n, by rw [Command.increment, hn]; rfl⟩
  · exact ⟨-1, rfl⟩
  · obtain ⟨n, hn⟩ := hnumber
    exact ⟨-n, by rw [Command.increment, hn]; rfl⟩

/-- The four commands are `do_incr`. -/
theorem exec_increment {c : Command} {delta : Int} (hdelta : c.increment args = some delta)
    (hcount : c.ValidCount args) (hover : ¬c.Overflows args) :
    exec (c.handler libc now args) s = exec (doIncr now (arg args 1) delta) s := by
  have hfits := fits_increment hdelta hover
  obtain ⟨rfl, rfl⟩ | ⟨rfl, rfl⟩ | ⟨rfl, hstoll⟩ | ⟨rfl, n, hstoll, rfl⟩ := increment_cases hdelta
  · show exec (needArgs 2 "incr" args (doIncr now (arg args 1) 1)) s = _
    rw [needArgs_of_le hcount]
  · show exec (needArgs 2 "decr" args (doIncr now (arg args 1) (-1))) s = _
    rw [needArgs_of_le hcount]
  · show exec (cmdIncrby now args) s = _
    rw [cmdIncrby, needArgs_of_le hcount, hstoll, exec_raise_ok_bind]
  · show exec (cmdDecrby now args) s = _
    rw [cmdDecrby, needArgs_of_le hcount, hstoll, exec_raise_ok_bind,
      int64_of_fits hfits, exec_raise_ok_bind]

/-! ### What the handlers do -/

section Mismatch

variable {o : Obj} {data : Bytes} (hs : s.dict.WF)
  (hlive : live now s.dict (arg args 1) = some o)

include hs hlive

/-- A handler that looks up its key. -/
theorem exec_oneKey_mismatch {n : ℕ} {name : String} {missing : Cmd Unit} {found : Obj → Cmd Unit}
    (hlen : n ≤ args.length) (hfound : found o = emit data) :
    exec (needArgs n name args (withKey now (arg args 1) missing found)) s =
      (.ok (), { s with writeBuf := s.writeBuf ++ data }) := by
  rw [exec_oneKey_live name args hlen hs hlive, hfound, exec_emit]

/-- A handler that would make a container. -/
theorem exec_container_mismatch {α : Type} {fresh : α} {wrap : α → Value}
    {content : Value → Option α} {f : Option α → Cmd Unit} (hcontent : content o.value = none)
    (hnone : f none = emit data) :
    exec (getOrCreate fresh wrap content now (arg args 1) >>= f) s =
      (.ok (), { s with writeBuf := s.writeBuf ++ data }) := by
  rw [getOrCreate_bind, exec_withKey_live hs hlive, hcontent, hnone, exec_emit]

/-- `do_incr` refuses what is no string. -/
theorem exec_doIncr_mismatch (hstr : o.value.type ≠ 0) (delta : Int) :
    exec (doIncr now (arg args 1) delta) s =
      (.ok (), { s with writeBuf := s.writeBuf ++ wrongTypeReply }) := by
  rw [doIncr, exec_withKey_live hs hlive]
  cases hvalue : o.value with
  | str text => exact absurd (by rw [hvalue]; rfl) hstr
  | _ => rfl

/-- A push refuses what is no list. -/
theorem exec_pushWith_mismatch (hlist : o.value.type ≠ 1) (push : List Bytes → Bytes → List Bytes)
    (name : String) (hlen : 3 ≤ args.length) :
    exec (pushWith push name now args) s =
      (.ok (), { s with writeBuf := s.writeBuf ++ wrongTypeReply }) := by
  rw [pushWith, needArgs_of_le hlen]
  refine exec_container_mismatch hs hlive ?_ rfl
  cases hvalue : o.value with
  | list l => exact absurd (by rw [hvalue]; rfl) hlist
  | _ => rfl

/-- Commands on strings. -/
theorem exec_mismatch_str {c : Command} (htype : c.valueType = some 0)
    (hcount : c.ValidCount args) (hnumber : c.NumberOk args) (hfits : ¬c.Overflows args)
    (hother : o.value.type ≠ 0) :
    exec (c.handler libc now args) s =
      (.ok (), { s with writeBuf := s.writeBuf ++ c.mismatchReply }) := by
  cases c with
  | GET | APPEND | STRLEN =>
    refine exec_oneKey_mismatch hs hlive hcount ?_
    cases hvalue : o.value with
    | str _ => exact absurd (by rw [hvalue]; rfl) hother
    | _ => rfl
  | INCR | INCRBY | DECR | DECRBY =>
    obtain ⟨delta, hdelta⟩ := exists_increment (by decide) hnumber
    rw [exec_increment hdelta hcount hfits]
    exact exec_doIncr_mismatch hs hlive hother delta
  | _ => exact absurd htype (by decide)

/-- Commands on lists. -/
theorem exec_mismatch_list {c : Command} (htype : c.valueType = some 1)
    (hcount : c.ValidCount args) (hother : o.value.type ≠ 1) :
    exec (c.handler libc now args) s =
      (.ok (), { s with writeBuf := s.writeBuf ++ c.mismatchReply }) := by
  cases c with
  | LPUSH => exact exec_pushWith_mismatch hs hlive hother listLpush "lpush" hcount
  | RPUSH => exact exec_pushWith_mismatch hs hlive hother listRpush "rpush" hcount
  | LPOP | RPOP | LLEN | LRANGE | LINDEX =>
    refine exec_oneKey_mismatch hs hlive hcount ?_
    cases hvalue : o.value with
    | list _ => exact absurd (by rw [hvalue]; rfl) hother
    | _ => rfl
  | _ => exact absurd htype (by decide)

/-- Commands on hashes. -/
theorem exec_mismatch_hash {c : Command} (htype : c.valueType = some 2)
    (hcount : c.ValidCount args) (hother : o.value.type ≠ 2) :
    exec (c.handler libc now args) s =
      (.ok (), { s with writeBuf := s.writeBuf ++ c.mismatchReply }) := by
  cases c with
  | HSET =>
    show exec (cmdHset now args) s = _
    rw [cmdHset, needPairs_of_pairs hcount]
    refine exec_container_mismatch hs hlive ?_ rfl
    cases hvalue : o.value with
    | hash _ => exact absurd (by rw [hvalue]; rfl) hother
    | _ => rfl
  | HGET | HDEL | HEXISTS | HLEN | HGETALL | HKEYS | HVALS =>
    refine exec_oneKey_mismatch hs hlive hcount ?_
    cases hvalue : o.value with
    | hash _ => exact absurd (by rw [hvalue]; rfl) hother
    | _ => rfl
  | _ => exact absurd htype (by decide)

/-- Commands on sorted sets. -/
theorem exec_mismatch_zset {c : Command} (htype : c.valueType = some 3)
    (hcount : c.ValidCount args) (hother : o.value.type ≠ 3) :
    exec (c.handler libc now args) s =
      (.ok (), { s with writeBuf := s.writeBuf ++ c.mismatchReply }) := by
  cases c with
  | ZADD =>
    show exec (cmdZadd libc now args) s = _
    rw [cmdZadd, needPairs_of_pairs hcount]
    refine exec_container_mismatch hs hlive ?_ rfl
    cases hvalue : o.value with
    | zset _ => exact absurd (by rw [hvalue]; rfl) hother
    | _ => rfl
  | ZSCORE | ZRANGE | ZRANK | ZCARD | ZREM =>
    refine exec_oneKey_mismatch hs hlive hcount ?_
    cases hvalue : o.value with
    | zset _ => exact absurd (by rw [hvalue]; rfl) hother
    | _ => rfl
  | _ => exact absurd htype (by decide)

/-- **On a key of another type** a command replies and does nothing else. -/
theorem exec_mismatch {c : Command} {type : UInt8} (htype : c.valueType = some type)
    (hcount : c.ValidCount args) (hnumber : c.NumberOk args) (hfits : ¬c.Overflows args)
    (hother : o.value.type ≠ type) :
    exec (c.handler libc now args) s =
      (.ok (), { s with writeBuf := s.writeBuf ++ c.mismatchReply }) := by
  have hfour : type = 0 ∨ type = 1 ∨ type = 2 ∨ type = 3 := by
    have hmem : c.valueType ∈ [none, some 0, some 1, some 2, some 3] := by
      cases c with
      | _ => decide
    rw [htype] at hmem
    simpa using hmem
  obtain rfl | rfl | rfl | rfl := hfour
  · exact exec_mismatch_str hs hlive htype hcount hnumber hfits hother
  · exact exec_mismatch_list hs hlive htype hcount hother
  · exact exec_mismatch_hash hs hlive htype hcount hother
  · exact exec_mismatch_zset hs hlive htype hcount hother

end Mismatch

/-- The argument of `DECRBY` that cannot be negated. -/
theorem exec_decrby_overflow (hlen : 3 ≤ args.length)
    (hdelta : stoll (arg args 2) = .ok (-2 ^ 63)) :
    exec (cmdDecrby now args) s = (.error .signedOverflow, s) := by
  rw [cmdDecrby, needArgs_of_le hlen, hdelta, exec_raise_ok_bind]
  rfl

/-- The replies of the thirteen, and no others, are the error. -/
theorem mismatchReply_eq_iff {c : Command} (hc : c.valueType ≠ none) :
    c.mismatchReply = wrongTypeReply ↔ c.checksType = true := by
  revert hc
  cases c with
  | _ => decide

/-- **Uniform types?** A command on a live key of another type, with enough arguments and a
well-formed number, replies `WRONGTYPE` and leaves the database as it is if and only if it is one
of the thirteen that test the type, and not a `DECRBY` whose argument cannot be negated. -/
theorem wrongType_iff (hs : Reachable libc s.dict) {name : Bytes} {rest : List Bytes} {c : Command}
    (hc : findCommand name = some c) {type : UInt8} (htype : c.valueType = some type)
    (hcount : c.ValidCount (name :: rest)) (hnumber : c.NumberOk (name :: rest)) {o : Obj}
    (hlive : live now s.dict (arg (name :: rest) 1) = some o) (hother : o.value.type ≠ type) :
    let r := exec (dispatchCommand libc now (name :: rest)) s
    (r.1 = .ok () ∧ r.2.writeBuf = s.writeBuf ++ wrongTypeReply ∧ r.2.dict = s.dict) ↔
      c.checksType = true ∧ ¬c.Overflows (name :: rest) := by
  intro r
  have hr : r = exec (c.handler libc now (name :: rest)) s := by
    rw [← dispatchCommand_of_find hc]
  by_cases hover : c.Overflows (name :: rest)
  · -- the program does not come to the test
    obtain ⟨rfl, hdelta⟩ := hover
    refine iff_of_false (fun h => ?_) fun h => h.2 ⟨rfl, hdelta⟩
    have hthrow : r = (.error .signedOverflow, s) := hr.trans (exec_decrby_overflow hcount hdelta)
    rw [hthrow] at h
    cases h.1
  · rw [hr, exec_mismatch hs.wf hlive htype hcount hnumber hover hother,
      ← mismatchReply_eq_iff (by rw [htype]; exact Option.some_ne_none type)]
    constructor
    · rintro ⟨-, hreply, -⟩
      exact ⟨List.append_cancel_left hreply, hover⟩
    · rintro ⟨hreply, -⟩
      exact ⟨rfl, congrArg _ hreply, rfl⟩

/-- The key of `oneSecondKey` is a string: `LPUSH` says so. -/
theorem lpush_on_string :
    let r := exec (dispatchCommand Libc.plain 1500 [ascii "LPUSH", ascii "k", ascii "x"])
      oneSecondKey
    (r.1 = .ok () ∧ r.2.writeBuf = oneSecondKey.writeBuf ++ wrongTypeReply ∧
        r.2.dict = oneSecondKey.dict) ↔
      Command.LPUSH.checksType = true ∧
        ¬Command.LPUSH.Overflows [ascii "LPUSH", ascii "k", ascii "x"] :=
  wrongType_iff reachable_oneSecondKey (by decide) rfl (le_refl 3) trivial
    (live_eq_some_iff.mpr ⟨get_oneSecondKey, by decide⟩) (by decide)

/-- `LPOP` does not: it replies null, as for a missing key. -/
theorem lpop_on_string :
    let cmd := [ascii "LPOP", ascii "k"]
    let r := exec (dispatchCommand Libc.plain 1500 cmd) oneSecondKey
    Reachable Libc.plain oneSecondKey.dict ∧ findCommand (ascii "LPOP") = some .LPOP ∧
      Command.LPOP.ValidCount cmd ∧
      live 1500 oneSecondKey.dict (ascii "k") = some ⟨.str (ascii "v"), 2000⟩ ∧
      r.2.writeBuf = ascii "$-1" ++ crlf ∧ r.2.writeBuf ≠ wrongTypeReply :=
  ⟨reachable_oneSecondKey, by decide, le_refl 2,
    live_eq_some_iff.mpr ⟨get_oneSecondKey, by decide⟩, by decide, by decide⟩

end Minired
