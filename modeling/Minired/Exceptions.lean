import Minired.Replies

/-!
# Exceptions

Nothing between a handler and `main` catches what `std::stoll`, `std::stol` and `std::stod`
throw, so an argument that they do not convert ends the server. `NoThrow m s` says that no
exception leaves the program `m`; a signed overflow is undefined behaviour and no exception.

Whether a conversion is reached depends on the number of arguments, on what is stored under
the key, and on the conversions before it. `Command.Converts` is the exact condition, command
by command, on the arguments and the database; `dispatch_throws_nothing_iff` proves it.
-/

namespace Minired

open Appending Relational

/-- The faults that are C++ exceptions. -/
def Fault.IsException : Fault → Prop
  | .invalidArgument | .outOfRange => True
  | .signedOverflow => False

/-- No exception leaves the program. -/
def NoThrow {α : Type} (m : Cmd α) (s : Session) : Prop :=
  ∀ e, (exec m s).1 = .error e → ¬e.IsException

/-- The text begins, behind white space, with an integer of 64 bits. -/
def IsInteger (text : Bytes) : Prop :=
  ∃ n rest, scanInt text = some (n, rest) ∧ LLONG_MIN ≤ n ∧ n ≤ LLONG_MAX

/-- The scores among the arguments of `ZADD` behind the key. -/
def scoreArgs : List Bytes → List Bytes
  | score :: _member :: rest => score :: scoreArgs rest
  | _ => []

/-- What a command needs to run without an exception. Where there are too few arguments, no key
or a value of another type, its handler converts nothing. -/
def Command.Converts (libc : Libc) (now : Int64) (d : Dict Obj) (args : List Bytes) :
    Command → Prop
  | .INCRBY | .DECRBY => 3 ≤ args.length → IsInteger (arg args 2)
  | .EXPIRE => 3 ≤ args.length → dictGet d (arg args 1) ≠ none → IsInteger (arg args 2)
  | .LINDEX => 3 ≤ args.length → (∃ o l, live now d (arg args 1) = some o ∧ o.value = .list l) →
      IsInteger (arg args 2)
  | .LRANGE => 4 ≤ args.length → (∃ o l, live now d (arg args 1) = some o ∧ o.value = .list l) →
      IsInteger (arg args 2) ∧ IsInteger (arg args 3)
  | .ZRANGE => 4 ≤ args.length → (∃ o z, live now d (arg args 1) = some o ∧ o.value = .zset z) →
      IsInteger (arg args 2) ∧ IsInteger (arg args 3)
  | .ZADD => 4 ≤ args.length → args.length % 2 = 0 →
      (∀ o, live now d (arg args 1) = some o → ∃ z, o.value = .zset z) →
      ∀ score ∈ scoreArgs (args.drop 2), ∃ x, libc.stod score = .ok x
  | _ => True

/-! ### Rules -/

variable {α β : Type}

/-- What converts nothing throws nothing. -/
theorem noThrow_of_writes {P : α → Bytes → Prop} {m : Cmd α}
    (h : Writes Session.at (Allowed false) P m) (s : Session) : NoThrow m s := by
  intro e he
  obtain ⟨res, t', r, hexec, hends⟩ := h (s.toGlobals, s.closing)
  have hs := hexec s.writeBuf
  rw [Session.at_eq] at hs
  rw [hs] at he
  obtain rfl : res = .error e := he
  obtain rfl := hends.resolve_left (by decide)
  exact id

/-- Behind a program that returns. -/
theorem noThrow_bind_ok {m : Cmd α} {f : α → Cmd β} {s s' : Session} {a : α}
    (h : exec m s = (.ok a, s')) : NoThrow (m >>= f) s ↔ NoThrow (f a) s' := by
  rw [NoThrow, NoThrow, exec_bind_ok h]

/-- In front of a program that throws nothing. -/
theorem noThrow_bind_left {m : Cmd α} {f : α → Cmd β} (hf : ∀ a s, NoThrow (f a) s)
    (s : Session) : NoThrow (m >>= f) s ↔ NoThrow m s := by
  rw [NoThrow, NoThrow, exec_bind]
  rcases exec m s with ⟨e | a, s'⟩
  · exact forall_congr' fun e' => by simp only [Except.error.injEq]
  · exact iff_of_true (hf a s') fun e he => by cases he

/-- A conversion that is reached must succeed, and so must what follows it. -/
theorem noThrow_raise_bind {r : Except Fault α} (hr : r ≠ .error .signedOverflow)
    {f : α → Cmd β} {s : Session} :
    NoThrow (raise r >>= f) s ↔ ∃ a, r = .ok a ∧ NoThrow (f a) s := by
  rcases r with e | a
  · refine iff_of_false (fun h => ?_) fun ⟨a, ha, _⟩ => by cases ha
    have hthrown := h e rfl
    cases e with
    | signedOverflow => exact hr rfl
    | invalidArgument => exact hthrown trivial
    | outOfRange => exact hthrown trivial
  · have hexec : exec (raise (.ok a : Except Fault α)) s = (.ok a, s) := rfl
    rw [noThrow_bind_ok hexec]
    exact ⟨fun h => ⟨a, rfl, h⟩, fun ⟨b, hb, h⟩ => Except.ok.inj hb ▸ h⟩

/-- `std::stoll` accepts the texts of integers that fit. -/
theorem stoll_ok_iff {text : Bytes} : (∃ n, stoll text = .ok n) ↔ IsInteger text := by
  rw [stoll]
  rcases h : scanInt text with _ | ⟨v, rest⟩
  · exact iff_of_false (fun ⟨n, hn⟩ => by cases hn) fun ⟨n, rest, hn, _⟩ => by
      rw [h] at hn
      cases hn
  · dsimp only
    split
    case isTrue hfits => exact iff_of_true ⟨v, rfl⟩ ⟨v, rest, h, hfits⟩
    case isFalse hwide =>
      -- a number that does not fit
      refine iff_of_false (fun ⟨n, hn⟩ => by cases hn) fun ⟨n, rest', hn, hfits⟩ => ?_
      rw [h] at hn
      cases hn
      exact hwide hfits

/-- It throws, and never overflows. -/
theorem stoll_ne_overflow (text : Bytes) : stoll text ≠ .error .signedOverflow := by
  rw [stoll]
  rcases scanInt text with _ | ⟨v, rest⟩
  · simp
  · dsimp only
    split <;> simp

/-- One integer is converted, and then nothing else is. -/
theorem noThrow_stoll {text : Bytes} {f : Int → Cmd β} (hf : ∀ n s, NoThrow (f n) s)
    (s : Session) : NoThrow (raise (stoll text) >>= f) s ↔ IsInteger text := by
  rw [noThrow_raise_bind (stoll_ne_overflow text), ← stoll_ok_iff]
  exact exists_congr fun n => and_iff_left (hf n s)

/-- Two integers are converted, and then nothing else is. -/
theorem noThrow_stoll_stoll {text text' : Bytes} {f : Int → Int → Cmd β}
    (hf : ∀ n m s, NoThrow (f n m) s) (s : Session) :
    NoThrow (raise (stoll text) >>= fun n => raise (stoll text') >>= f n) s ↔
      IsInteger text ∧ IsInteger text' := by
  rw [noThrow_raise_bind (stoll_ne_overflow text), ← stoll_ok_iff]
  simp only [noThrow_stoll (hf _), exists_and_right]

/-- The check of the number of arguments. -/
theorem noThrow_needArgs {n : ℕ} {name : String} {args : List Bytes} {body : Cmd Unit}
    {s : Session} {p : Prop} (hbody : n ≤ args.length → (NoThrow body s ↔ p)) :
    NoThrow (needArgs n name args body) s ↔ (n ≤ args.length → p) := by
  rw [needArgs]
  split
  case isTrue h =>
    refine iff_of_true ?_ fun hle => absurd h (not_lt.mpr hle)
    -- too few arguments are answered with an error, and nothing is converted
    exact noThrow_of_writes (emits_emit _) s
  case isFalse h =>
    have hle := not_lt.mp h
    exact (hbody hle).trans ⟨fun hp _ => hp, fun hp => hp hle⟩

/-- A handler runs on what is live of its key. -/
theorem exec_withKey {now : Int64} {key : Bytes} {missing : Cmd α} {found : Obj → Cmd α}
    {s : Session} (hs : s.dict.WF) :
    exec (withKey now key missing found) s =
      exec ((live now s.dict key).elim missing found)
        { s with dict := (checkExpiry now s.dict key).1 } := by
  -- what is live of the key is what the lookup finds behind the check
  have hget : dictGet (checkExpiry now s.dict key).1 key = live now s.dict key := by
    rw [dictGet_checkExpiry hs, Function.update_self]
  have hcheck : exec (dbCheckExpiry now key) s =
      (.ok (), { s with dict := (checkExpiry now s.dict key).1 }) := rfl
  have hdbGet : exec (dbGet key) { s with dict := (checkExpiry now s.dict key).1 } =
      (.ok (live now s.dict key), { s with dict := (checkExpiry now s.dict key).1 }) := by
    rw [← hget]
    rfl
  rw [withKey, exec_bind_ok hcheck, exec_bind_ok hdbGet]
  cases live now s.dict key with
  | none => rfl
  | some obj => rfl

/-- Only the case of a live key, of one type, converts. -/
theorem noThrow_withKey {now : Int64} {key : Bytes} {missing : Cmd α} {found : Obj → Cmd α}
    {s : Session} (hs : s.dict.WF) {content : Obj → Prop} {p : Prop}
    (hmissing : ∀ s, NoThrow missing s) (hfound : ∀ o s, content o → (NoThrow (found o) s ↔ p))
    (hother : ∀ o s, ¬content o → NoThrow (found o) s) :
    NoThrow (withKey now key missing found) s ↔
      ((∃ o, live now s.dict key = some o ∧ content o) → p) := by
  rw [NoThrow, exec_withKey hs]
  rcases live now s.dict key with _ | o
  · exact iff_of_true (hmissing _) fun ⟨o, ho, _⟩ => by cases ho
  · by_cases ho : content o
    · -- a live key of the type: its content decides
      refine (hfound o _ ho).trans ⟨fun hp _ => hp, fun hp => hp ⟨o, rfl, ho⟩⟩
    · refine iff_of_true (hother o _ ho) fun ⟨o', ho', hcontent⟩ => absurd hcontent ?_
      rwa [← Option.some.inj ho']

/-! ### The handlers that convert -/

/-- `EXPIRE` throws when its seconds do not convert, if the key is there. -/
theorem noThrow_cmdExpire (now : Int64) (args : List Bytes) (s : Session) :
    NoThrow (cmdExpire now args) s ↔
      (3 ≤ args.length → dictGet s.dict (arg args 1) ≠ none → IsInteger (arg args 2)) := by
  refine noThrow_needArgs fun _ => ?_
  have hget : exec (dbGet (arg args 1)) s = (.ok (dictGet s.dict (arg args 1)), s) := rfl
  rw [noThrow_bind_ok hget]
  cases dictGet s.dict (arg args 1) with
  | none =>
    exact iff_of_true (noThrow_of_writes (replies_integer 0) s) fun h => absurd rfl h
  | some obj =>
    -- the seconds are converted only when the key is there
    refine (noThrow_stoll (fun secs s => ?_) s).trans
      ⟨fun h _ => h, fun h => h (Option.some_ne_none obj)⟩
    refine noThrow_of_writes (P := fun _ r => IsReply r) ?_ s
    refine (silent_int64 _).bind_silent fun ms => (silent_int64 _).bind_silent fun _ => ?_
    exact (silent_dbModify _ _).bind_silent fun _ => replies_integer 1

/-- `INCRBY` throws when its argument does not convert. -/
theorem noThrow_cmdIncrby (now : Int64) (args : List Bytes) (s : Session) :
    NoThrow (cmdIncrby now args) s ↔ (3 ≤ args.length → IsInteger (arg args 2)) :=
  noThrow_needArgs fun _ =>
    noThrow_stoll (fun _ s => noThrow_of_writes (replies_doIncr now _ _) s) s

/-- So does `DECRBY`. -/
theorem noThrow_cmdDecrby (now : Int64) (args : List Bytes) (s : Session) :
    NoThrow (cmdDecrby now args) s ↔ (3 ≤ args.length → IsInteger (arg args 2)) := by
  refine noThrow_needArgs fun _ => noThrow_stoll (fun delta s => ?_) s
  refine noThrow_of_writes (P := fun _ r => IsReply r) ?_ s
  exact (silent_int64 _).bind_silent fun _ => replies_doIncr now _ _

section Live

variable {now : Int64} {args : List Bytes} {s : Session} (hs : s.dict.WF)

include hs

/-- `LRANGE` throws when a bound does not convert, if there is a list. -/
theorem noThrow_cmdLrange :
    NoThrow (cmdLrange now args) s ↔ (4 ≤ args.length →
      (∃ o l, live now s.dict (arg args 1) = some o ∧ o.value = .list l) →
      IsInteger (arg args 2) ∧ IsInteger (arg args 3)) := by
  simp only [exists_and_left]
  refine noThrow_needArgs fun _ => noThrow_withKey hs
    (noThrow_of_writes replies_emptyArray) (fun o s ho => ?_) fun o s ho => ?_
  · obtain ⟨l, hl⟩ := ho
    rw [hl]
    exact noThrow_stoll_stoll (fun _ _ s => noThrow_of_writes (replies_bulks _) s) s
  · refine noThrow_of_writes (P := fun _ r => IsReply r) ?_ s
    cases hvalue : o.value with
    | list l => exact absurd ⟨l, hvalue⟩ ho
    | _ => exact replies_wrongType

/-- `LINDEX` throws when its index does not convert, if there is a list. -/
theorem noThrow_cmdLindex :
    NoThrow (cmdLindex now args) s ↔ (3 ≤ args.length →
      (∃ o l, live now s.dict (arg args 1) = some o ∧ o.value = .list l) →
      IsInteger (arg args 2)) := by
  simp only [exists_and_left]
  refine noThrow_needArgs fun _ => noThrow_withKey hs
    (noThrow_of_writes replies_nullBulk) (fun o s ho => ?_) fun o s ho => ?_
  · obtain ⟨l, hl⟩ := ho
    rw [hl]
    refine noThrow_stoll (fun index s => noThrow_of_writes (P := fun _ r => IsReply r) ?_ s) s
    cases listIndex l index with
    | none => exact replies_nullBulk
    | some val => exact replies_bulk val
  · refine noThrow_of_writes (P := fun _ r => IsReply r) ?_ s
    cases hvalue : o.value with
    | list l => exact absurd ⟨l, hvalue⟩ ho
    | _ => exact replies_nullBulk

variable (libc : Libc)

/-- `ZRANGE` throws when a bound does not convert, if there is a sorted set. -/
theorem noThrow_cmdZrange :
    NoThrow (cmdZrange libc now args) s ↔ (4 ≤ args.length →
      (∃ o z, live now s.dict (arg args 1) = some o ∧ o.value = .zset z) →
      IsInteger (arg args 2) ∧ IsInteger (arg args 3)) := by
  simp only [exists_and_left]
  refine noThrow_needArgs fun _ => noThrow_withKey hs
    (noThrow_of_writes replies_emptyArray) (fun o s ho => ?_) fun o s ho => ?_
  · obtain ⟨z, hz⟩ := ho
    rw [hz]
    refine noThrow_stoll_stoll (fun start stop s => ?_) s
    exact noThrow_of_writes (replies_zrangeOut libc _ _) s
  · refine noThrow_of_writes (P := fun _ r => IsReply r) ?_ s
    cases hvalue : o.value with
    | zset z => exact absurd ⟨z, hvalue⟩ ho
    | _ => exact replies_emptyArray

end Live

/-- An addition to a sorted set throws nothing. -/
theorem exec_dbZsetAdd (libc : Libc) (key : Bytes) (z : ZSet) (member : Bytes) (score : Double)
    (s : Session) : ∃ z' s', exec (dbZsetAdd libc key z member score) s = (.ok z', s') :=
  ⟨_, _, rfl⟩

section Zadd

variable {libc : Libc} (hstod : ∀ text, libc.stod text ≠ .error .signedOverflow)

include hstod

/-- The loop converts every score. -/
theorem noThrow_zaddLoop (key : Bytes) (pairs : List Bytes) (z : ZSet) (added : ℕ)
    (s : Session) :
    NoThrow (zaddLoop libc key z added pairs) s ↔
      ∀ score ∈ scoreArgs pairs, ∃ x, libc.stod score = .ok x := by
  fun_induction zaddLoop libc key z added pairs generalizing s with
  | case1 z added score member rest ih =>
    -- the score in front, and then those of the rest
    rw [noThrow_raise_bind (hstod score), scoreArgs, List.forall_mem_cons]
    constructor
    · rintro ⟨x, hx, hrest⟩
      obtain ⟨z', s', hadd⟩ := exec_dbZsetAdd libc key z member x s
      rw [noThrow_bind_ok hadd, ih] at hrest
      exact ⟨⟨x, hx⟩, hrest⟩
    · rintro ⟨⟨x, hx⟩, hrest⟩
      obtain ⟨z', s', hadd⟩ := exec_dbZsetAdd libc key z member x s
      refine ⟨x, hx, ?_⟩
      rw [noThrow_bind_ok hadd, ih]
      exact hrest
  | case2 pairs z added hpairs =>
    rw [scoreArgs.eq_2 pairs hpairs]
    exact iff_of_true (noThrow_of_writes (silent_pure _) s) fun _ h => absurd h List.not_mem_nil

/-- A key of another type ends the command before the first score. -/
theorem noThrow_cmdZadd {now : Int64} {args : List Bytes} {s : Session} (hs : s.dict.WF) :
    NoThrow (cmdZadd libc now args) s ↔ (4 ≤ args.length → args.length % 2 = 0 →
      (∀ o, live now s.dict (arg args 1) = some o → ∃ z, o.value = .zset z) →
      ∀ score ∈ scoreArgs (args.drop 2), ∃ x, libc.stod score = .ok x) := by
  -- the loop, and the reply behind it, throw as the loop does
  have hloop : ∀ z s, NoThrow (zaddLoop libc (arg args 1) z 0 (args.drop 2) >>= fun added =>
      replyInteger added) s ↔ ∀ score ∈ scoreArgs (args.drop 2), ∃ x, libc.stod score = .ok x :=
    fun z s => (noThrow_bind_left (fun n : ℕ => noThrow_of_writes (replies_integer n)) s).trans
      (noThrow_zaddLoop hstod _ _ z 0 s)
  rw [cmdZadd, needPairs]
  split
  case isTrue h =>
    refine iff_of_true (noThrow_of_writes (emits_emit _) s) fun hlen heven => ?_
    rcases h with hshort | hodd
    · exact absurd hlen (not_le.mpr hshort)
    · exact absurd heven hodd
  case isFalse h =>
    push Not at h
    -- the container of the key decides whether the loop runs
    obtain ⟨s', hexec⟩ : ∃ s', exec (getOrCreateZset now (arg args 1)) s =
        (.ok ((live now s.dict (arg args 1)).elim (some zsetNew) fun o => o.value.zset?), s') := by
      rw [getOrCreateZset, getOrCreate, exec_withKey hs]
      cases live now s.dict (arg args 1) with
      | none => exact ⟨_, rfl⟩
      | some o => exact ⟨_, rfl⟩
    rw [noThrow_bind_ok hexec]
    rcases live now s.dict (arg args 1) with _ | o
    · refine (hloop zsetNew s').trans ⟨fun hp _ _ _ => hp, fun hp => hp h.1 h.2 fun o ho => ?_⟩
      cases ho
    · rcases hvalue : o.value with _ | _ | _ | z
      case zset =>
        rw [Option.elim_some, hvalue]
        refine (hloop z s').trans ⟨fun hp _ _ _ => hp, fun hp => hp h.1 h.2 fun o' ho => ?_⟩
        exact ⟨z, Option.some.inj ho ▸ hvalue⟩
      all_goals
        rw [Option.elim_some, hvalue]
        refine iff_of_true (noThrow_of_writes replies_wrongType s') fun _ _ hz => ?_
        -- a value of another type is no sorted set, whatever is assumed
        obtain ⟨z, hz⟩ := hz o rfl
        rw [hvalue] at hz
        cases hz

end Zadd

/-! ### Dispatch -/

/-- **Every handler** throws nothing if and only if its arguments convert. -/
theorem noThrow_handler {libc : Libc} (hstod : ∀ text, libc.stod text ≠ .error .signedOverflow)
    (now : Int64) (c : Command) (args : List Bytes) {s : Session} (hs : s.dict.WF) :
    NoThrow (c.handler libc now args) s ↔ c.Converts libc now s.dict args := by
  cases hthrows : c.throws with
  | false =>
    have hwrites := replies_handler libc now c args
    rw [hthrows] at hwrites
    -- handlers that convert nothing throw nothing
    refine iff_of_true (noThrow_of_writes hwrites s) ?_
    cases c <;> trivial
  | true =>
    cases c with
    | EXPIRE => exact noThrow_cmdExpire now args s
    | INCRBY => exact noThrow_cmdIncrby now args s
    | DECRBY => exact noThrow_cmdDecrby now args s
    | LRANGE => exact noThrow_cmdLrange hs
    | LINDEX => exact noThrow_cmdLindex hs
    | ZADD => exact noThrow_cmdZadd hstod hs
    | ZRANGE => exact noThrow_cmdZrange hs libc
    | _ => cases hthrows

/-- **No exception** leaves `dispatch_command`, at any time and on any reachable database, if and
only if the arguments of the command, when it is in the table, convert. That `std::stod` throws
nothing but its two exceptions is the assumption on the C++ library. -/
theorem dispatch_throws_nothing_iff {libc : Libc}
    (hstod : ∀ text, libc.stod text ≠ .error .signedOverflow) (now : Int64) {s : Session}
    (hs : Reachable libc s.dict) (name : Bytes) (args : List Bytes) :
    NoThrow (dispatchCommand libc now (name :: args)) s ↔
      ∀ c, findCommand name = some c → c.Converts libc now s.dict (name :: args) := by
  cases hfind : findCommand name with
  | some c =>
    rw [dispatchCommand_of_find hfind, noThrow_handler hstod now c (name :: args) hs.wf]
    exact ⟨fun h c' hc' => Option.some.inj hc' ▸ h, fun h => h c rfl⟩
  | none =>
    -- an unknown command has no handler, and its error converts nothing
    refine iff_of_true (noThrow_of_writes (emits_unknown libc now hfind args) s) fun c hc => ?_
    cases hc

/-- An `INCRBY` by a word, on an empty database. -/
theorem incrby_throws :
    Reachable Libc.plain Session.fresh.dict ∧
      ¬NoThrow (dispatchCommand Libc.plain 0 [ascii "INCRBY", ascii "k", ascii "abc"])
        Session.fresh := by
  refine ⟨reachable_fresh, fun h => h .invalidArgument ?_ trivial⟩
  decide

/-- An `INCRBY` by a number. -/
theorem incrby_throws_nothing :
    NoThrow (dispatchCommand Libc.plain 0 [ascii "INCRBY", ascii "k", ascii "5"])
      Session.fresh := by
  have hstod : ∀ text, Libc.plain.stod text ≠ .error .signedOverflow := by
    intro text
    simp only [Libc.plain]
    split_ifs <;> simp
  refine (dispatch_throws_nothing_iff hstod 0 reachable_fresh _ _).mpr fun c hc => ?_
  obtain rfl : c = .INCRBY := Option.some.inj (hc.symm.trans (by decide))
  exact fun _ => ⟨5, [], by decide, by decide, by decide⟩

end Minired
