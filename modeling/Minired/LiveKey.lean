import Minired.StoredValues
import Minired.Exceptions

/-!
# Runs on a known key

When it is known what is live of a key, the run of a handler on it can be computed. A key that
is live is not changed by the check of its deadline, so the handler goes on with its object from
the very session it started in (`exec_withKey_live`); a key of which nothing is live takes the
other case (`exec_withKey_missing`).

`Replied now s args v` says what came of a command: it returned, and its reply is the value `v`.
The replies of arrays are loops, computed once for all by `exec_array`.
-/

namespace Minired

open Framing Relational

variable {libc : Libc} {now : Int64} {key : Bytes} {s : Session} {α β : Type}

/-- A handler of a key of which nothing is live. -/
theorem exec_withKey_missing {missing : Cmd α} {found : Obj → Cmd α} (hs : s.dict.WF)
    (hlive : live now s.dict key = none) :
    exec (withKey now key missing found) s =
      exec missing { s with dict := (checkExpiry now s.dict key).1 } := by
  rw [exec_withKey hs, hlive]
  rfl

/-- The check leaves a live key, and all others, alone. -/
theorem checkExpiry_of_live {d : Dict Obj} {o : Obj} (hlive : live now d key = some o) :
    (checkExpiry now d key).1 = d := by
  obtain ⟨hget, ho⟩ := live_eq_some_iff.mp hlive
  rw [checkExpiry_of_not_expired fun o' ho' => Option.some.inj (hget.symm.trans ho') ▸ ho]

/-- A handler of a live key. -/
theorem exec_withKey_live {missing : Cmd α} {found : Obj → Cmd α} {o : Obj} (hs : s.dict.WF)
    (hlive : live now s.dict key = some o) :
    exec (withKey now key missing found) s = exec (found o) s := by
  rw [exec_withKey hs, hlive, checkExpiry_of_live hlive]
  rfl

/-- The same, with the check of the arguments in front. -/
theorem exec_oneKey_live {n : ℕ} (name : String) (args : List Bytes) {missing : Cmd Unit}
    {found : Obj → Cmd Unit} {o : Obj} (hlen : n ≤ args.length) (hs : s.dict.WF)
    (hlive : live now s.dict (arg args 1) = some o) :
    exec (needArgs n name args (withKey now (arg args 1) missing found)) s = exec (found o) s := by
  rw [needArgs_of_le hlen, exec_withKey_live hs hlive]

/-- A key that is stored without a deadline is live. -/
theorem live_newObj {d : Dict Obj} {v : Value} (hget : dictGet d key = some (newObj v)) :
    live now d key = some (newObj v) := live_eq_some_iff.mpr ⟨hget, rfl⟩

/-- A value that is written under a live key. -/
theorem live_setValue {d : Dict Obj} (hd : d.WF) {v : Value} {expireAtMs : Int64}
    (hlive : live now d key = some ⟨v, expireAtMs⟩) (w : Value) :
    live now (dictModify d key (Obj.setValue w)) key = some ⟨w, expireAtMs⟩ := by
  obtain ⟨hget, hnot⟩ := live_eq_some_iff.mp hlive
  refine live_eq_some_iff.mpr ⟨?_, hnot⟩
  rw [dictGet_dictModify_self hd, hget]
  rfl

/-- A command that makes the container of its key goes on with the one that is live, or with a new
one, and has it under a live key. -/
theorem exec_getOrCreate_bind {γ : Type} (fresh : γ) (wrap : γ → Value)
    (content : Value → Option γ) (hcontent : ∀ c, content (wrap c) = some c) (hs : s.dict.WF)
    (hkey : ∀ o, live now s.dict key = some o → ∃ c, o.value = wrap c) (f : Option γ → Cmd α) :
    let c := ((live now s.dict key).bind fun o => content o.value).getD fresh
    ∃ (d : Dict Obj) (expireAtMs : Int64), d.WF ∧
      live now d key = some ⟨wrap c, expireAtMs⟩ ∧
      exec (getOrCreate fresh wrap content now key >>= f) s =
        exec (f (some c)) { s with dict := d } := by
  rw [getOrCreate_bind]
  cases hlive : live now s.dict key with
  | none =>
    -- the container is made first
    have hcheck := wf_checkExpiry hs now key
    rw [exec_withKey_missing hs hlive]
    exact ⟨_, 0, wf_dictSet hcheck key _,
      live_newObj (dictGet_dictSet_self hcheck key (newObj (wrap fresh))), rfl⟩
  | some o =>
    obtain ⟨c, hc⟩ := hkey o hlive
    obtain ⟨value, expireAtMs⟩ := o
    subst hc
    rw [exec_withKey_live hs hlive, Option.bind_some, hcontent]
    exact ⟨s.dict, expireAtMs, hs, hlive, rfl⟩

/-- Arguments in pairs pass the check. -/
theorem needPairs_of_pairs {name : String} {args : List Bytes} {body : Cmd Unit}
    (h : 4 ≤ args.length ∧ args.length % 2 = 0) : needPairs name args body = body := by
  refine if_neg ?_
  rintro (hshort | hodd)
  · exact absurd h.1 (not_le.mpr hshort)
  · exact hodd h.2

/-- Pairs, as arguments. -/
def pairArgs (pairs : List (Bytes × Bytes)) : List Bytes := pairs.flatMap fun p => [p.1, p.2]

/-- Two arguments a pair. -/
theorem length_pairArgs (pairs : List (Bytes × Bytes)) :
    (pairArgs pairs).length = 2 * pairs.length := by
  rw [pairArgs, List.length_flatMap]
  simp [mul_comm]

/-- Nothing is stored in a fresh server. -/
theorem live_fresh (now : Int64) (key : Bytes) : live now Session.fresh.dict key = none := by
  show (dictGet dictNew key).filter _ = none
  rw [dictGet_dictNew]
  rfl

/-! ### Replies -/

variable (libc) in
/-- The command returned, and its reply is the value. -/
def Replied (now : Int64) (s : Session) (args : List Bytes) (v : RespValue) : Prop :=
  (exec (dispatchCommand libc now args) s).1 = .ok () ∧
    (exec (dispatchCommand libc now args) s).2.writeBuf = s.writeBuf ++ v.encode

/-- A command that runs to a reply has this reply. -/
theorem replied_of_exec {name : Bytes} {c : Command} {args : List Bytes} {t : Session}
    {v : RespValue} (hc : findCommand name = some c)
    (hrun : exec (c.handler libc now (name :: args)) s =
      (.ok (), { t with writeBuf := s.writeBuf ++ v.encode })) :
    Replied libc now s (name :: args) v := by
  rw [Replied, dispatchCommand_of_find hc, hrun]
  exact ⟨rfl, rfl⟩

/-- The reply of a command that reads a key of which nothing is live. -/
theorem replied_missing {name : Bytes} {c : Command} {args : List Bytes} {v : RespValue}
    {missing : Cmd Unit} {found : Obj → Cmd Unit} (hc : findCommand name = some c)
    (hs : s.dict.WF) (hlive : live now s.dict key = none)
    (hhandler : c.handler libc now (name :: args) = withKey now key missing found)
    (hmissing : ∀ t, exec missing t = (.ok (), { t with writeBuf := t.writeBuf ++ v.encode })) :
    Replied libc now s (name :: args) v := by
  refine replied_of_exec (t := { s with dict := (checkExpiry now s.dict key).1 }) hc ?_
  rw [hhandler, exec_withKey_missing hs hlive, hmissing]

/-- The reply of a command that reads a live key. -/
theorem replied_live {name : Bytes} {c : Command} {args : List Bytes} {v : RespValue} {o : Obj}
    {missing : Cmd Unit} {found : Obj → Cmd Unit} (hc : findCommand name = some c)
    (hs : s.dict.WF) (hlive : live now s.dict key = some o)
    (hhandler : c.handler libc now (name :: args) = withKey now key missing found)
    (hfound : exec (found o) s = (.ok (), { s with writeBuf := s.writeBuf ++ v.encode })) :
    Replied libc now s (name :: args) v := by
  refine replied_of_exec (t := s) hc ?_
  rw [hhandler, exec_withKey_live hs hlive, hfound]

/-- A command has one reply only, on the wire. -/
theorem Replied.unique {args : List Bytes} {v w : RespValue} (hv : Replied libc now s args v)
    (hw : Replied libc now s args w) : v.encode = w.encode :=
  List.append_cancel_left (hv.2.symm.trans hw.2)

/-- The encoding of an array gives back its elements. -/
theorem encode_array_inj {as bs : List Bytes}
    (h : (RespValue.array as).encode = (RespValue.array bs).encode) : as = bs := by
  rw [RespValue.encode, RespValue.encode] at h
  obtain ⟨hlen, hrest⟩ := header_cancel (by decide) h
  refine (stream_respBulk_cancel hlen (x := []) (y := []) ?_).1
  rw [hrest]

/-- The encoding of a natural number gives it back. -/
theorem encode_integer_inj {n m : ℕ}
    (h : (RespValue.integer n).encode = (RespValue.integer m).encode) : n = m := by
  have hline : decimalInt n ++ crlf = decimalInt m ++ crlf := by
    rw [RespValue.encode, RespValue.encode, List.append_assoc, List.append_assoc] at h
    exact List.append_cancel_left h
  have hnonneg : ∀ k : ℕ, decimalInt (k : Int) = decimal k := fun k => by
    rw [decimalInt, if_neg (not_lt.mpr (Int.natCast_nonneg k)), Int.natAbs_natCast]
  rw [hnonneg, hnonneg] at hline
  exact decimal_injective (List.append_cancel_right hline)

/-! ### Arrays -/

/-- A loop of replies. -/
theorem exec_forM_replies {f : β → Cmd Unit} {g : β → List Bytes}
    (hf : ∀ b s, exec (f b) s =
      (.ok (), { s with writeBuf := s.writeBuf ++ stream respBulk (g b) }))
    (bs : List β) (s : Session) :
    exec (bs.forM f) s =
      (.ok (), { s with writeBuf := s.writeBuf ++ stream respBulk (bs.flatMap g) }) := by
  induction bs generalizing s with
  | nil =>
    rw [List.flatMap_nil, stream_nil, List.append_nil]
    rfl
  | cons b bs ih =>
    show exec (f b >>= fun _ => bs.forM f) s = _
    rw [exec_bind_ok (hf b s), ih, List.flatMap_cons, stream_append, List.append_assoc]

/-- **An array reply**: the header, and then the loop. -/
theorem exec_array {f : β → Cmd Unit} {g : β → List Bytes}
    (hf : ∀ b s, exec (f b) s =
      (.ok (), { s with writeBuf := s.writeBuf ++ stream respBulk (g b) }))
    {bs : List β} {n : ℕ} (hn : n = (bs.flatMap g).length) (s : Session) :
    exec (do replyArrayHeader n; bs.forM f) s =
      (.ok (), { s with writeBuf := s.writeBuf ++ (RespValue.array (bs.flatMap g)).encode }) := by
  have hheader : exec (replyArrayHeader n) s =
      (.ok (), { s with writeBuf := s.writeBuf ++ header 42 n }) := rfl
  rw [exec_bind_ok hheader, exec_forM_replies hf, hn, List.append_assoc]
  rfl

/-- A bulk string as a stream of one. -/
theorem exec_replyBulk (item : Bytes) (s : Session) :
    exec (replyBulk item) s =
      (.ok (), { s with writeBuf := s.writeBuf ++ stream respBulk [item] }) := by
  rw [stream_cons, stream_nil, List.append_nil]
  rfl

/-- An array of bulk strings. -/
theorem exec_bulks (items : List Bytes) (s : Session) :
    exec (do replyArrayHeader items.length; items.forM replyBulk) s =
      (.ok (), { s with writeBuf := s.writeBuf ++ (RespValue.array items).encode }) := by
  have h := exec_array (g := fun item => [item]) exec_replyBulk
    (by rw [List.flatMap_singleton'] : items.length = _) s
  rwa [List.flatMap_singleton'] at h

end Minired
