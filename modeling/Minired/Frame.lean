import Minired.LiveKey
import Minired.ExpiredKeys

/-!
# The frame law of the keyspace

A command touches no key but those among its arguments: the others keep their objects, with
type, value and deadline, through the collisions and the resizes of the table
(`frame_dispatchCommand`). This is the footprint of the handlers, with what one other key has as
the property that is kept.

What the deadline of a key goes through depends on whether the handler writes through the pointer to
the object or puts a new object in its place. `Command.isUpdate` lists the commands that change
a value in place; on a live key they keep its deadline (`deadline_isUpdate`). `SET` makes a new
object, which has no deadline.
-/

namespace Minired

open Relational

variable {libc : Libc} {now : Int64} {key : Bytes} {p : Dict Obj → Prop} {s : Session}
  {args : List Bytes}

/-! ### The other keys -/

/-- The operations do not leave the class of all values. -/
theorem valueClass_all (libc : Libc) : ValueClass libc fun _ => True where
  str _ := trivial
  list _ := trivial
  hashNew := trivial
  hashSet _ _ _ _ := trivial
  hashDel _ _ _ := trivial
  zsetNew := trivial
  zsetAdd _ _ _ _ _ := trivial
  zsetRem _ _ _ := trivial

/-- What another key has survives the accesses to a key. -/
theorem footprint_frame (now : Int64) {key k : Bytes} (hk : k ≠ key) (v : Option Obj) :
    Footprint now key (fun _ => True) fun d => d.WF ∧ dictGet d k = v where
  check d h := ⟨wf_checkExpiry h.1 now key, by
    rw [dictGet_checkExpiry h.1, Function.update_of_ne hk, h.2]⟩
  get _ _ _ _ := trivial
  set d _ _ h := ⟨wf_dictSet h.1 key _, by
    rw [dictGet_dictSet h.1, Function.update_of_ne hk, h.2]⟩
  del d h := ⟨wf_dictDel h.1 key, by rw [dictGet_dictDel h.1, Function.update_of_ne hk, h.2]⟩
  write d _ _ h := ⟨wf_dictModify h.1 key _, by
    rw [dictGet_dictModify h.1, Function.update_of_ne hk, h.2]⟩
  deadline d _ h := ⟨wf_dictModify h.1 key _, by
    rw [dictGet_dictModify h.1, Function.update_of_ne hk, h.2]⟩

/-- The key is not one that the command names, and the command is not `FLUSHDB`. A command that
`dispatch_command` does not know names no key. -/
def Unnamed (args : List Bytes) (k : Bytes) : Prop :=
  ∀ name rest c, args = name :: rest → findCommand name = some c →
    c ≠ .FLUSHDB ∧ k ∉ c.keys args

/-- **Frame.** A command leaves the keys alone that it does not name. -/
theorem frame_dispatchCommand (now : Int64) (hs : s.dict.WF) {k : Bytes} (hk : Unnamed args k) :
    dictGet (exec (dispatchCommand libc now args) s).2.dict k = dictGet s.dict k := by
  rcases args with _ | ⟨name, args⟩
  · rfl
  cases hfind : findCommand name with
  | none =>
    rw [dispatchCommand, hfind]
    rfl
  | some c =>
    obtain ⟨hflush, hnotin⟩ := hk name args c rfl hfind
    rw [dispatchCommand_of_find hfind]
    have hkeep := keeps_footprint (valueClass_all libc) hflush fun key hkey =>
      footprint_frame now (ne_of_mem_of_not_mem hkey hnotin).symm (dictGet s.dict k)
    exact (hkeep s ⟨hs, rfl⟩).2

/-! ### The deadline of the key -/

/-- The commands that change the value of a key in place. -/
def Command.isUpdate : Command → Bool
  | .APPEND | .INCR | .DECR | .INCRBY | .DECRBY => true
  | .LPUSH | .RPUSH | .LPOP | .RPOP | .HSET | .HDEL | .ZADD | .ZREM => true
  | _ => false

section Update

/-! #### Handlers of a live key -/

variable {α : Type} {o : Obj} (hp : p s.dict)

include hp

/-- Whatever the number of arguments is. -/
theorem update_needArgs {n : ℕ} {name : String} {body : Cmd Unit}
    (h : p (exec body s).2.dict) : p (exec (needArgs n name args body) s).2.dict := by
  rw [needArgs]
  split
  · exact hp
  · exact h

/-- Whatever pairs there are. -/
theorem update_needPairs {name : String} {body : Cmd Unit} (h : p (exec body s).2.dict) :
    p (exec (needPairs name args body) s).2.dict := by
  rw [needPairs]
  split
  · exact hp
  · exact h

/-- Whatever a conversion yields. -/
theorem update_raise {r : Except Fault α} {f : α → Cmd Unit}
    (h : ∀ a, p (exec (f a) s).2.dict) : p (exec (raise r >>= f) s).2.dict := by
  cases r with
  | error e => exact hp
  | ok a => exact h a

variable (hs : s.dict.WF) (hlive : live now s.dict key = some o)

include hs hlive

/-- On a live key a handler takes the case of the object. -/
theorem update_withKey {missing : Cmd α} {found : Obj → Cmd α}
    (hfound : ∀ obj, KeepsDict p (found obj)) :
    p (exec (withKey now key missing found) s).2.dict := by
  rw [exec_withKey_live hs hlive]
  exact hfound o s hp

/-- No container is made. -/
theorem update_container {fresh : α} {wrap : α → Value} {content : Value → Option α}
    {f : Option α → Cmd Unit} (hf : ∀ r, KeepsDict p (f r)) :
    p (exec (getOrCreate fresh wrap content now key >>= f) s).2.dict := by
  rw [getOrCreate_bind]
  exact update_withKey hp hs hlive fun obj => hf _

variable (hwrite : ∀ d v, p d → p (dictModify d key (Obj.setValue v)))

omit hs hlive hp in
include hwrite in
/-- An update of the value keeps the deadline. -/
theorem keepsDict_update (v : Value) : KeepsDict p (dbModify key (Obj.setValue v)) :=
  Keeps.modify fun s hs => hwrite s.dict v hs

omit hs hlive hp in
include hwrite in
/-- The loop of `ZADD` is one update after the other. -/
theorem keepsDict_zaddUpdate (pairs : List Bytes) (z : ZSet) (added : ℕ) :
    KeepsDict p (zaddLoop libc key z added pairs) := by
  fun_induction zaddLoop libc key z added pairs with
  | case1 z added score member rest ih =>
    refine (keeps_raise _).bind fun x => Keeps.bind ?_ fun z' => ih z'
    exact Keeps.bind (Keeps.modifyGet fun _ hs => hs) fun z' =>
      (keepsDict_update hwrite _).bind fun _ => Keeps.pure _
  | case2 => exact Keeps.pure _

include hwrite

/-- The counters update the text of a live key. -/
theorem update_doIncr (delta : Int) : p (exec (doIncr now key delta) s).2.dict := by
  refine update_withKey hp hs hlive fun obj => ?_
  cases obj.value with
  | str text =>
    refine Keeps.cond (keepsDict_emit _) ((keeps_raise _).bind fun val => ?_)
    exact (keepsDict_update hwrite _).bind fun _ => keepsDict_emit _
  | _ => exact keepsDict_emit _

end Update

section UpdateHandlers

variable {o : Obj} (hp : p s.dict) (hs : s.dict.WF)
  (hlive : live now s.dict (arg args 1) = some o)
  (hwrite : ∀ d v, p d → p (dictModify d (arg args 1) (Obj.setValue v)))

include hp hs hlive hwrite

/-- `APPEND` updates it too. -/
theorem update_cmdAppend : p (exec (cmdAppend now args) s).2.dict := by
  refine update_needArgs hp (update_withKey hp hs hlive fun obj => ?_)
  cases obj.value with
  | str text => exact (keepsDict_update hwrite _).bind fun _ => keepsDict_emit _
  | _ => exact keepsDict_emit _

/-- A push updates the list. -/
theorem update_pushWith (push : List Bytes → Bytes → List Bytes) (name : String) :
    p (exec (pushWith push name now args) s).2.dict := by
  refine update_needArgs hp (update_container hp hs hlive fun r => ?_)
  cases r with
  | none => exact keepsDict_emit _
  | some l => exact (keepsDict_update hwrite _).bind fun _ => keepsDict_emit _

/-- A pop updates the list, or deletes the key with the last element. -/
theorem update_popWith (hdel : ∀ d, p d → p (dictDel d (arg args 1)).1)
    (pop : List Bytes → List Bytes × Option Bytes) (name : String) :
    p (exec (popWith pop name now args) s).2.dict := by
  refine update_needArgs hp (update_withKey hp hs hlive fun obj => ?_)
  cases obj.value with
  | list l =>
    dsimp only
    rcases pop l with ⟨l', _ | val⟩
    · exact keepsDict_emit _
    · refine (keepsDict_update hwrite _).bind fun _ => (keepsDict_emit _).bind fun _ => ?_
      refine Keeps.cond (Keeps.bind ?_ fun _ => Keeps.pure _) (Keeps.pure _)
      exact Keeps.modifyGet fun s hs => hdel s.dict hs
  | _ => exact keepsDict_emit _

/-- `HSET` updates the hash. -/
theorem update_cmdHset : p (exec (cmdHset now args) s).2.dict := by
  refine update_needPairs hp (update_container hp hs hlive fun r => ?_)
  cases r with
  | none => exact keepsDict_emit _
  | some h => exact (keepsDict_update hwrite _).bind fun _ => keepsDict_emit _

/-- `HDEL` updates it too. -/
theorem update_cmdHdel : p (exec (cmdHdel now args) s).2.dict := by
  refine update_needArgs hp (update_withKey hp hs hlive fun obj => ?_)
  cases obj.value with
  | hash h => exact (keepsDict_update hwrite _).bind fun _ => keepsDict_emit _
  | _ => exact keepsDict_emit _

/-- `ZADD` updates the sorted set. -/
theorem update_cmdZadd : p (exec (cmdZadd libc now args) s).2.dict := by
  refine update_needPairs hp (update_container hp hs hlive fun r => ?_)
  cases r with
  | none => exact keepsDict_emit _
  | some z => exact (keepsDict_zaddUpdate hwrite _ z 0).bind fun _ => keepsDict_emit _

/-- `ZREM` updates it too. -/
theorem update_cmdZrem : p (exec (cmdZrem libc now args) s).2.dict := by
  refine update_needArgs hp (update_withKey hp hs hlive fun obj => ?_)
  cases obj.value with
  | zset z => exact (keepsDict_update hwrite _).bind fun _ => keepsDict_emit _
  | _ => exact keepsDict_emit _

/-- **Updates in place.** On a live key they keep what survives writes to its value, and its
deletion. -/
theorem update_handler {c : Command} (hc : c.isUpdate = true)
    (hdel : ∀ d, p d → p (dictDel d (arg args 1)).1) :
    p (exec (c.handler libc now args) s).2.dict := by
  cases c with
  | APPEND => exact update_cmdAppend hp hs hlive hwrite
  | INCR => exact update_needArgs hp (update_doIncr hp hs hlive hwrite 1)
  | DECR => exact update_needArgs hp (update_doIncr hp hs hlive hwrite (-1))
  | INCRBY =>
    exact update_needArgs hp (update_raise hp fun delta => update_doIncr hp hs hlive hwrite delta)
  | DECRBY =>
    exact update_needArgs hp <| update_raise hp fun delta =>
      update_raise hp fun delta => update_doIncr hp hs hlive hwrite delta
  | LPUSH => exact update_pushWith hp hs hlive hwrite listLpush "lpush"
  | RPUSH => exact update_pushWith hp hs hlive hwrite listRpush "rpush"
  | LPOP => exact update_popWith hp hs hlive hwrite hdel listLpop "lpop"
  | RPOP => exact update_popWith hp hs hlive hwrite hdel listRpop "rpop"
  | HSET => exact update_cmdHset hp hs hlive hwrite
  | HDEL => exact update_cmdHdel hp hs hlive hwrite
  | ZADD => exact update_cmdZadd hp hs hlive hwrite
  | ZREM => exact update_cmdZrem hp hs hlive hwrite
  | _ => exact absurd hc (by decide)

end UpdateHandlers

/-- **The deadline** of a live key stays, if the key is still there. -/
theorem deadline_isUpdate {c : Command} (hc : c.isUpdate = true) (hs : s.dict.WF) {o o' : Obj}
    (hlive : live now s.dict (arg args 1) = some o)
    (hget : dictGet (exec (c.handler libc now args) s).2.dict (arg args 1) = some o') :
    o'.expireAtMs = o.expireAtMs := by
  let p : Dict Obj → Prop := fun d => d.WF ∧
    ∀ o', dictGet d (arg args 1) = some o' → o'.expireAtMs = o.expireAtMs
  have hp : p s.dict := ⟨hs, fun o' ho' =>
    congrArg Obj.expireAtMs (Option.some.inj (ho'.symm.trans (live_eq_some_iff.mp hlive).1))⟩
  have hwrite : ∀ d v, p d → p (dictModify d (arg args 1) (Obj.setValue v)) := by
    rintro d v ⟨hd, hdeadline⟩
    refine ⟨wf_dictModify hd _ _, fun o' ho' => ?_⟩
    rw [dictGet_dictModify_self hd] at ho'
    -- a write of the value leaves the deadline as it was
    obtain ⟨o₁, ho₁, rfl⟩ := Option.map_eq_some_iff.mp ho'
    exact hdeadline o₁ ho₁
  have hdel : ∀ d, p d → p (dictDel d (arg args 1)).1 := by
    rintro d ⟨hd, -⟩
    refine ⟨wf_dictDel hd _, fun o' ho' => ?_⟩
    rw [dictGet_dictDel hd, Function.update_self] at ho'
    cases ho'
  exact (update_handler hp hs hlive hwrite hc hdel).2 o' hget

/-! ### SET -/

/-- A `SET` that is acknowledged has set the key. -/
theorem exec_set_acknowledged {s' : Session} (h : exec (cmdSet args) s = (.ok (), s'))
    (hreply : s'.writeBuf = s.writeBuf ++ (ascii "+OK" ++ crlf)) :
    3 ≤ args.length ∧ s'.dict = dictSet s.dict (arg args 1) (newObj (.str (arg args 2))) := by
  rw [cmdSet, needArgs] at h
  split_ifs at h with hlen
  · -- the reply is an error
    obtain rfl := (Prod.mk.inj h).2.symm
    exact absurd (List.append_cancel_left hreply) (by decide)
  · obtain rfl := (Prod.mk.inj h).2.symm
    exact ⟨not_lt.mp hlen, rfl⟩

/-- **The frame law.** In every reachable database, every command but `FLUSHDB` leaves the objects
of the keys alone that are not among its arguments; the commands that change a value in place keep
the deadline of a live key, if the key is still there; and a `SET` that replies `+OK` leaves its key
without a deadline. -/
theorem frame_law (hs : Reachable libc s.dict) (now : Int64) {name : Bytes} {args : List Bytes}
    {c : Command} (hc : findCommand name = some c) (hflush : c ≠ .FLUSHDB) {s' : Session}
    (hrun : exec (dispatchCommand libc now (name :: args)) s = (.ok (), s')) :
    (∀ k, k ∉ c.keys (name :: args) → dictGet s'.dict k = dictGet s.dict k) ∧
      (c.isUpdate = true → ∀ k ∈ c.keys (name :: args), ∀ o o', live now s.dict k = some o →
        dictGet s'.dict k = some o' → o'.expireAtMs = o.expireAtMs) ∧
      (c = .SET → s'.writeBuf = s.writeBuf ++ (ascii "+OK" ++ crlf) →
        ∀ k ∈ c.keys (name :: args), ∃ o, dictGet s'.dict k = some o ∧ o.expireAtMs = 0) := by
  have hdict : s' = (exec (dispatchCommand libc now (name :: args)) s).2 := by rw [hrun]
  refine ⟨fun k hk => ?_, fun hupdate k hk o o' hlive hget => ?_, ?_⟩
  · -- the key is not named
    rw [hdict]
    refine frame_dispatchCommand now hs.wf ?_
    rintro _ _ c' heq hc'
    obtain ⟨rfl, rfl⟩ := List.cons.inj heq
    obtain rfl := Option.some.inj (hc.symm.trans hc')
    exact ⟨hflush, hk⟩
  · -- these commands have one key
    rw [hdict, dispatchCommand_of_find hc] at hget
    have hkeys : c.keys (name :: args) = args.take 1 := by
      cases c with
      | _ => first | rfl | exact absurd hupdate (by decide)
    rw [hkeys] at hk
    have hkey : arg (name :: args) 1 = k := (eq_arg_of_mem_take hk).1
    subst hkey
    exact deadline_isUpdate hupdate hs.wf hlive hget
  · rintro rfl hreply k hk
    have hkey : arg (name :: args) 1 = k := (eq_arg_of_mem_take hk).1
    subst hkey
    rw [dispatchCommand_of_find hc] at hrun
    refine ⟨newObj (.str (arg (name :: args) 2)), ?_, rfl⟩
    rw [(exec_set_acknowledged hrun hreply).2, dictGet_dictSet_self hs.wf]

/-- A list and a hash beside the key of `oneSecondKey`. -/
def threeKeys : Session :=
  afterCommands Libc.plain 1000 [[ascii "RPUSH", ascii "l", ascii "x", ascii "y"],
    [ascii "HSET", ascii "h", ascii "f", ascii "1"]] oneSecondKey

/-- `APPEND k w` at 1500 ms: the list and the hash of `threeKeys` stay as they are, and the deadline
of the key stays 2000. -/
theorem frame_law_append :
    let args := [ascii "k", ascii "w"]
    let s' := (exec (dispatchCommand Libc.plain 1500 (ascii "APPEND" :: args)) threeKeys).2
    (∀ k, k ∉ Command.APPEND.keys (ascii "APPEND" :: args) →
        dictGet s'.dict k = dictGet threeKeys.dict k) ∧
      dictGet s'.dict (ascii "l") = some ⟨.list [ascii "x", ascii "y"], 0⟩ ∧
      dictGet s'.dict (ascii "h") =
        some ⟨.hash (htableSet dictNew (ascii "f") (ascii "1")), 0⟩ ∧
      ∀ o', dictGet s'.dict (ascii "k") = some o' → o'.expireAtMs = 2000 := by
  intro args s'
  have hc : findCommand (ascii "APPEND") = some .APPEND := by decide
  have hok : (exec (dispatchCommand Libc.plain 1500 (ascii "APPEND" :: args)) threeKeys).1 =
      .ok () := by decide +kernel
  have hs : Reachable Libc.plain threeKeys.dict := reachable_oneSecondKey.afterCommands 1000 _
  obtain ⟨hother, hdeadline, -⟩ := frame_law hs 1500 hc (by decide) (Prod.ext hok rfl)
  have hlive : live 1500 threeKeys.dict (ascii "k") = some ⟨.str (ascii "v"), 2000⟩ :=
    live_eq_some_iff.mpr ⟨rfl, by decide⟩
  exact ⟨hother, hother _ (by decide), hother _ (by decide), fun o' ho' =>
    hdeadline rfl _ (List.mem_singleton.mpr rfl) _ o' hlive ho'⟩

end Minired
