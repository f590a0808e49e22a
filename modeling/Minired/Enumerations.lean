import Minired.LiveKey

/-!
# Enumerations

`LRANGE`, `HKEYS`, `HVALS`, `HGETALL` and `ZRANGE` collect what they reply into buffers on the
stack: 65536 places for a list and 4096 for a hash or a sorted set. What does not fit is left
out, without an error, while `LLEN`, `HLEN` and `ZCARD` count everything.

`ListEnumerated`, `HashEnumerated` and `ZSetEnumerated` say that the two views agree. The handlers
reply the first elements, as many as fit (`replied_lrange`, `replied_hkeys` and the others), and
an array determines its elements, so the views agree exactly on the containers that fit
(`enumerations_complete_iff`). That the tables and the skip lists of a reachable database are
in order is the invariant `Reachable.values`.
-/

namespace Minired

open Framing KeyedList Relational

variable (libc : Libc)

/-- The buffer of `cmd_lrange`. -/
def LRANGE_BUFFER : ℕ := 65536

/-- The buffers of the handlers of hashes and of `cmd_zrange`. -/
def ENTRY_BUFFER : ℕ := 4096

/-- `LRANGE key 0 -1` replies the elements of the list, and `LLEN key` their number. -/
structure ListEnumerated (now : Int64) (s : Session) (key : Bytes) (l : List Bytes) : Prop where
  llen : Replied libc now s [ascii "LLEN", key] (.integer l.length)
  lrange : Replied libc now s [ascii "LRANGE", key, ascii "0", ascii "-1"] (.array l)

/-- The commands for hashes reply the same entries: each field of the hash once, with its
value. -/
structure HashEnumerated (now : Int64) (s : Session) (key : Bytes) (h : Dict Bytes)
    (es : List (Bytes × Bytes)) : Prop where
  nodup : (es.map Prod.fst).Nodup
  mem : ∀ field value, (field, value) ∈ es ↔ htableGet h field = some value
  hlen : Replied libc now s [ascii "HLEN", key] (.integer es.length)
  hkeys : Replied libc now s [ascii "HKEYS", key] (.array (es.map Prod.fst))
  hvals : Replied libc now s [ascii "HVALS", key] (.array (es.map Prod.snd))
  hgetall : Replied libc now s [ascii "HGETALL", key] (.array (es.flatMap fun e => [e.1, e.2]))

/-- `ZRANGE key 0 -1` replies the members along the skip list, and `ZCARD key` their number. A
member is read as a C string, which it is when it has no NUL. -/
structure ZSetEnumerated (now : Int64) (s : Session) (key : Bytes)
    (C : List (Bytes × Double)) : Prop where
  zcard : Replied libc now s [ascii "ZCARD", key] (.integer C.length)
  zrange : Replied libc now s [ascii "ZRANGE", key, ascii "0", ascii "-1"]
    (.array (C.map fun c => cstr c.1))

variable {libc} {now : Int64} {key : Bytes} {s : Session} {o : Obj}

/-! ### What fits into the buffers -/

/-- The whole range of a list, as far as it fits. -/
theorem listRange_all (l : List Bytes) (max : ℕ) : listRange l 0 (-1) max = l.take max := by
  have hstart : normalizeIndex 0 l.length = 0 := if_neg (lt_irrefl 0)
  have hstop : normalizeIndex (-1) l.length = (l.length : Int) - 1 := if_pos (by decide)
  have hfits : ¬(l.length : Int) - 1 ≥ l.length := by omega
  simp only [listRange, hstart, hstop, lt_irrefl, hfits, if_false]
  split
  case isTrue hempty =>
    obtain rfl : l = [] := List.length_eq_zero_iff.mp (by omega)
    exact List.take_nil.symm
  case isFalse hfull =>
    -- all elements from the first to the last
    have hcount : ((l.length : Int) - 1 - 0 + 1).toNat = l.length := by omega
    rw [hcount, Int.toNat_zero, List.drop_zero, min_comm, ← List.take_take, List.take_length]

/-- The whole range of a sorted set, as far as it fits. -/
theorem zsetRange_all {z : ZSet} {C : List (Bytes × Double)} (hC : z.sl.Holds C) (max : ℕ) :
    zsetRange z 0 (-1) max = C.take max := by
  have hlow : rangeLow C.length 0 = 0 := by
    rw [rangeLow, if_neg (lt_irrefl 0), max_self]
  have hhigh : rangeHigh C.length (-1) = (C.length : Int) - 1 := by
    rw [rangeHigh, if_pos (by decide)]
    exact min_self _
  have hcount : ((C.length : Int) - 1 - 0 + 1).toNat = C.length := by omega
  rw [zsetRange, slRangeByRank_holds hC, hlow, hhigh, hcount, Int.toNat_zero, List.drop_zero,
    Int.toNat_natCast, min_comm, ← List.take_take, List.take_length]

/-! ### The replies on a live key -/

/-- The first bound of a full range. -/
theorem stoll_zero : stoll (ascii "0") = .ok 0 := by decide

/-- And the last. -/
theorem stoll_minus_one : stoll (ascii "-1") = .ok (-1) := by decide

section Live

variable (libc) (hs : s.dict.WF) (ho : live now s.dict key = some o)

include hs ho

/-- `LLEN` replies the number of elements. -/
theorem replied_llen {l : List Bytes} (hl : o.value = .list l) :
    Replied libc now s [ascii "LLEN", key] (.integer l.length) := by
  refine replied_live (c := .LLEN) (by decide) hs ho rfl ?_
  rw [hl]
  rfl

/-- `LRANGE` over everything replies the elements that its buffer takes. -/
theorem replied_lrange {l : List Bytes} (hl : o.value = .list l) :
    Replied libc now s [ascii "LRANGE", key, ascii "0", ascii "-1"]
      (.array (l.take LRANGE_BUFFER)) := by
  refine replied_of_exec (c := .LRANGE) (t := s) (by decide) ?_
  refine (exec_oneKey_live "lrange" [ascii "LRANGE", key, ascii "0", ascii "-1"] le_rfl hs
    ho).trans ?_
  rw [hl]
  -- both ends of the range are converted
  show exec (raise (stoll (ascii "0")) >>= fun start => raise (stoll (ascii "-1")) >>= _) s = _
  rw [stoll_zero, exec_raise_ok_bind, stoll_minus_one, exec_raise_ok_bind, listRange_all]
  exact exec_bulks _ s

/-- `HLEN` replies the number of fields. -/
theorem replied_hlen {h : Dict Bytes} (hh : o.value = .hash h) :
    Replied libc now s [ascii "HLEN", key] (.integer (htableLen h)) := by
  refine replied_live (c := .HLEN) (by decide) hs ho rfl ?_
  rw [hh]
  rfl

/-- The commands that list a hash, by what they reply for one entry. -/
theorem exec_hlistWith {width : ℕ} {reply : Bytes × Bytes → Cmd Unit} (name : String)
    {g : Bytes × Bytes → List Bytes} {h : Dict Bytes} (args : List Bytes)
    (hlen : 2 ≤ args.length) (hkey : arg args 1 = key) (hh : o.value = .hash h)
    (hreply : ∀ e s, exec (reply e) s =
      (.ok (), { s with writeBuf := s.writeBuf ++ stream respBulk (g e) }))
    (hwidth : ∀ e, (g e).length = width) :
    exec (hlistWith width reply name now args) s =
      (.ok (), { s with writeBuf := s.writeBuf ++
        (RespValue.array ((h.visits.take ENTRY_BUFFER).flatMap g)).encode }) := by
  have hcollect : htableGetall h 4096 = h.visits.take ENTRY_BUFFER := dictEach_collectCb h 4096
  have hcount : ∀ es : List (Bytes × Bytes), es.length * width = (es.flatMap g).length := by
    intro es
    rw [List.length_flatMap, List.map_congr_left fun e _ => hwidth e, List.map_const',
      List.sum_replicate, smul_eq_mul]
  rw [hlistWith, exec_oneKey_live name args hlen hs (hkey ▸ ho), hh]
  dsimp only
  rw [hcollect]
  exact exec_array hreply (hcount _) s

/-- `HKEYS` replies the fields that were collected. -/
theorem replied_hkeys {h : Dict Bytes} (hh : o.value = .hash h) :
    Replied libc now s [ascii "HKEYS", key]
      (.array ((h.visits.take ENTRY_BUFFER).map Prod.fst)) := by
  refine replied_of_exec (c := .HKEYS) (t := s) (by decide) ?_
  rw [List.map_eq_flatMap]
  exact exec_hlistWith hs ho "hkeys" [ascii "HKEYS", key] le_rfl rfl hh
    (fun e => exec_replyBulk e.1) fun _ => rfl

/-- `HVALS` replies their values. -/
theorem replied_hvals {h : Dict Bytes} (hh : o.value = .hash h) :
    Replied libc now s [ascii "HVALS", key]
      (.array ((h.visits.take ENTRY_BUFFER).map Prod.snd)) := by
  refine replied_of_exec (c := .HVALS) (t := s) (by decide) ?_
  rw [List.map_eq_flatMap]
  exact exec_hlistWith hs ho "hvals" [ascii "HVALS", key] le_rfl rfl hh
    (fun e => exec_replyBulk e.2) fun _ => rfl

/-- `HGETALL` replies both, in turn. -/
theorem replied_hgetall {h : Dict Bytes} (hh : o.value = .hash h) :
    Replied libc now s [ascii "HGETALL", key]
      (.array ((h.visits.take ENTRY_BUFFER).flatMap fun e => [e.1, e.2])) := by
  refine replied_of_exec (c := .HGETALL) (t := s) (by decide) ?_
  refine exec_hlistWith hs ho "hgetall" [ascii "HGETALL", key] le_rfl rfl hh (fun e s => ?_)
    fun _ => rfl
  -- one entry is replied in two steps
  rw [exec_bind_ok (exec_replyBulk e.1 s), exec_replyBulk]
  dsimp only
  rw [List.append_assoc, ← stream_append]
  rfl

/-- `ZCARD` replies the number of nodes. -/
theorem replied_zcard {z : ZSet} {C : List (Bytes × Double)} (hz : o.value = .zset z)
    (hC : z.sl.Holds C) : Replied libc now s [ascii "ZCARD", key] (.integer C.length) := by
  refine replied_live (c := .ZCARD) (by decide) hs ho rfl ?_
  rw [hz, ← hC.length_eq]
  rfl

/-- `ZRANGE` over everything replies the members that its buffer takes, as C strings. -/
theorem replied_zrange {z : ZSet} {C : List (Bytes × Double)} (hz : o.value = .zset z)
    (hC : z.sl.Holds C) :
    Replied libc now s [ascii "ZRANGE", key, ascii "0", ascii "-1"]
      (.array ((C.take ENTRY_BUFFER).map fun c => cstr c.1)) := by
  refine replied_of_exec (c := .ZRANGE) (t := s) (by decide) ?_
  refine (exec_oneKey_live "zrange" [ascii "ZRANGE", key, ascii "0", ascii "-1"] le_rfl hs
    ho).trans ?_
  rw [hz]
  show exec (raise (stoll (ascii "0")) >>= fun start => raise (stoll (ascii "-1")) >>= _) s = _
  rw [stoll_zero, exec_raise_ok_bind, stoll_minus_one, exec_raise_ok_bind]
  -- without a fifth argument there are no scores
  have hrange : zsetRange z 0 (-1) 4096 = C.take ENTRY_BUFFER := zsetRange_all hC 4096
  show exec (do
    replyArrayHeader (zsetRange z 0 (-1) 4096).length
    (zsetRange z 0 (-1) 4096).forM (zrangeReply libc false)) s = _
  rw [hrange, List.map_eq_flatMap]
  refine exec_array (fun c s => ?_) (by simp) s
  rw [zrangeReply, exec_bind_ok (exec_replyBulk (cstr c.1) s)]
  rfl

end Live

/-! ### The exact condition -/

/-- A list is enumerated if and only if it fits into the buffer. -/
theorem listEnumerated_iff (hs : s.dict.WF) (ho : live now s.dict key = some o) {l : List Bytes}
    (hl : o.value = .list l) : ListEnumerated libc now s key l ↔ l.length ≤ LRANGE_BUFFER := by
  have hlrange := replied_lrange libc hs ho hl
  constructor
  · intro h
    -- there is one reply, and it has the first elements
    exact (List.take_eq_self_iff l).mp (encode_array_inj (hlrange.unique h.lrange))
  · intro h
    rw [(List.take_eq_self_iff l).mpr h] at hlrange
    exact ⟨replied_llen libc hs ho hl, hlrange⟩

/-- A hash is enumerated if and only if its fields fit into the buffers. -/
theorem hashEnumerated_iff (hs : s.dict.WF) (ho : live now s.dict key = some o) {h : Dict Bytes}
    (hh : o.value = .hash h) (hwf : h.WF) :
    (∃ es, HashEnumerated libc now s key h es) ↔ htableLen h ≤ ENTRY_BUFFER := by
  have hrel : DictRel h (dictGet h) := ⟨hwf, rfl⟩
  have hlen : h.visits.length = htableLen h := by
    rw [Dict.visits, List.length_map]
    exact hwf.count_eq.symm
  have hhkeys := replied_hkeys libc hs ho hh
  constructor
  · rintro ⟨es, hes⟩
    have hcount := encode_integer_inj ((replied_hlen libc hs ho hh).unique hes.hlen)
    have hkeys := congrArg List.length (encode_array_inj (hhkeys.unique hes.hkeys))
    -- as many fields are replied as there are, and no more than the buffer holds
    rw [List.length_map, List.length_map, List.length_take] at hkeys
    rw [hcount, ← hkeys]
    exact min_le_left _ _
  · intro hfits
    have hall : h.visits.take ENTRY_BUFFER = h.visits :=
      (List.take_eq_self_iff _).mpr (hlen.trans_le hfits)
    have hhvals := replied_hvals libc hs ho hh
    have hhgetall := replied_hgetall libc hs ho hh
    rw [hall] at hhkeys hhvals hhgetall
    refine ⟨h.visits, hrel.visits_spec.1, hrel.visits_spec.2, ?_, hhkeys, hhvals, hhgetall⟩
    rw [hlen]
    exact replied_hlen libc hs ho hh

/-- A sorted set is enumerated if and only if its members fit into the buffer. -/
theorem zsetEnumerated_iff (hs : s.dict.WF) (ho : live now s.dict key = some o) {z : ZSet}
    (hz : o.value = .zset z) {C : List (Bytes × Double)} (hC : z.sl.Holds C) :
    ZSetEnumerated libc now s key C ↔ zsetCard z ≤ ENTRY_BUFFER := by
  have hcard : zsetCard z = C.length := hC.length_eq
  have hzrange := replied_zrange libc hs ho hz hC
  constructor
  · intro h
    have hmembers := congrArg List.length (encode_array_inj (hzrange.unique h.zrange))
    rw [List.length_map, List.length_map, List.length_take] at hmembers
    rw [hcard, ← hmembers]
    exact min_le_left _ _
  · intro hfits
    rw [(List.take_eq_self_iff C).mpr (hcard.symm.trans_le hfits)] at hzrange
    exact ⟨replied_zcard libc hs ho hz hC, hzrange⟩

/-- **Enumerations are complete** on a live key of a reachable database if and only if the
container fits into the buffer of the reply: 65536 elements of a list, 4096 fields of a hash,
and 4096 members of a sorted set. -/
theorem enumerations_complete_iff (hs : Reachable libc s.dict) (ho : live now s.dict key = some o) :
    (∀ l, o.value = .list l → (ListEnumerated libc now s key l ↔ l.length ≤ LRANGE_BUFFER)) ∧
    (∀ h, o.value = .hash h →
      ((∃ es, HashEnumerated libc now s key h es) ↔ htableLen h ≤ ENTRY_BUFFER)) ∧
    ∀ z, o.value = .zset z → ∃ C, z.sl.Holds C ∧
      (ZSetEnumerated libc now s key C ↔ zsetCard z ≤ ENTRY_BUFFER) := by
  have hwf := hs.values.of_live ho
  refine ⟨fun l hl => listEnumerated_iff hs.wf ho hl, fun h hh => ?_, fun z hz => ?_⟩
  · rw [hh] at hwf
    exact hashEnumerated_iff hs.wf ho hh hwf
  · rw [hz] at hwf
    obtain ⟨⟨C, hC⟩, -⟩ := hwf
    exact ⟨C, hC, zsetEnumerated_iff hs.wf ho hz hC⟩

/-! ### Lists of any length -/

/-- Pushes at the right append. -/
theorem foldl_listRpush (es l : List Bytes) : es.foldl listRpush l = l ++ es := by
  induction es generalizing l with
  | nil => exact (List.append_nil l).symm
  | cons e es ih =>
    rw [List.foldl_cons, ih, listRpush, List.append_assoc]
    rfl

/-- `RPUSH` of any elements on a new server. -/
theorem live_rpush_fresh (now : Int64) (key : Bytes) {es : List Bytes} (hes : es ≠ []) :
    live now (exec (dispatchCommand libc now (ascii "RPUSH" :: key :: es)) Session.fresh).2.dict
      key = some (newObj (.list es)) := by
  have hlive : live now Session.fresh.dict (arg (ascii "RPUSH" :: key :: es) 1) = none := by
    show (dictGet dictNew key).filter _ = none
    rw [dictGet_dictNew]
    rfl
  have hlen : ¬(ascii "RPUSH" :: key :: es).length < 3 := by
    have hpos := List.length_pos_iff.mpr hes
    simp only [List.length_cons]
    omega
  have hwf := wf_checkExpiry (wf_dictNew (α := Obj)) now key
  have hset := wf_dictSet hwf key (newObj (.list []))
  -- the list is made, and the elements are pushed
  have hrun : (exec (dispatchCommand libc now (ascii "RPUSH" :: key :: es)) Session.fresh).2.dict =
      dictModify (dictSet (checkExpiry now dictNew key).1 key (newObj (.list []))) key
        (Obj.setValue (.list es)) := by
    rw [dispatchCommand_of_find (c := .RPUSH) (by decide)]
    show (exec (pushWith listRpush "rpush" now _) Session.fresh).2.dict = _
    rw [pushWith, needArgs, if_neg hlen, getOrCreateList, getOrCreate_bind,
      exec_withKey_missing wf_dictNew hlive]
    show dictModify _ key (Obj.setValue (.list (es.foldl listRpush []))) = _
    rw [foldl_listRpush, List.nil_append]
    rfl
  rw [live, hrun, dictGet_dictModify_self hset, dictGet_dictSet_self hwf]
  rfl

/-- A list of three elements is enumerated. -/
theorem enumerated_three :
    ListEnumerated Libc.plain 0 (exec (dispatchCommand Libc.plain 0
        [ascii "RPUSH", ascii "k", ascii "a", ascii "b", ascii "c"]) Session.fresh).2
      (ascii "k") [ascii "a", ascii "b", ascii "c"] :=
  ((enumerations_complete_iff (.command 0 _ reachable_fresh)
    (live_rpush_fresh 0 (ascii "k") (by simp))).1 _ rfl).mpr (by decide)

/-- A list that does not fit is not enumerated. -/
theorem long_list_not_enumerated {es : List Bytes} (hes : LRANGE_BUFFER < es.length) :
    let s := (exec (dispatchCommand libc 0 (ascii "RPUSH" :: ascii "k" :: es)) Session.fresh).2
    Reachable libc s.dict ∧ live 0 s.dict (ascii "k") = some (newObj (.list es)) ∧
      ¬ListEnumerated libc 0 s (ascii "k") es := by
  intro s
  have hne : es ≠ [] := List.ne_nil_of_length_pos (Nat.zero_lt_of_lt hes)
  have hlive : live 0 s.dict (ascii "k") = some (newObj (.list es)) :=
    live_rpush_fresh 0 (ascii "k") hne
  have hs : Reachable libc s.dict := .command 0 _ reachable_fresh
  refine ⟨hs, hlive, fun h => ?_⟩
  exact absurd ((listEnumerated_iff hs.wf hlive rfl).mp h) (not_le.mpr hes)

/-- With 65537 elements, the last one is missing in the reply. -/
theorem list_65537_not_enumerated :
    let es := List.replicate 65537 (ascii "a")
    let s := (exec (dispatchCommand Libc.plain 0 (ascii "RPUSH" :: ascii "k" :: es))
      Session.fresh).2
    Reachable Libc.plain s.dict ∧ live 0 s.dict (ascii "k") = some (newObj (.list es)) ∧
      ¬ListEnumerated Libc.plain 0 s (ascii "k") es :=
  long_list_not_enumerated (by rw [List.length_replicate]; decide)

end Minired
