import Minired.KeyspaceRules
import Minired.KeyPattern
import Minired.Deadlines
import Minired.LinkedListAccess

/-!
# The commands and the keyspace

Every handler meets what `Keyspace.execute` says of its command: `meets_strings`, `meets_lists`,
`meets_hashes` and `meets_zsets` are about the commands on one type of values, `meets_handler` is
about all of them, and `store_refines` puts it in terms of steps: the code's store refines the
specification, and so does every run of commands and sweeps (`store_runs`).
-/

namespace Minired

open Framing Relational Refinement KeyedList

variable {libc : Libc} {now : Int64} {key : Bytes} {σ : Keyspace} {args : List Bytes}

/-- What `std::stoll` returns is the number. -/
theorem number_of_stoll {text : Bytes} {n : Int} (h : stoll text = .ok n) : number text = n := by
  rw [number, h]
  rfl

/-- A signed operation that does not overflow returns its result. -/
theorem eq_of_int64 {v n : Int} (h : int64 v = .ok n) : n = v := by
  unfold int64 at h
  split_ifs at h
  exact (Except.ok.inj h).symm

/-! ### Strings -/

/-- `do_incr` adds to a number, starts from zero, and refuses any other text. -/
theorem meets_doIncr {c : Command} (hc : c.mismatchReply = wrongTypeReply) (delta : Int) :
    Meets libc (fun d => StoreRel libc d σ) (doIncr now key delta)
      (σ.onKey now.toInt key (typed c .str Content.str? (bump delta))) := by
  refine meets_typed (.string libc) (fun v t hother => ?_) ?_ fun s s' t hs hkey => ?_
  · -- of the four types, only the string is not refused
    rw [hc]
    cases v with
    | str s => cases hother
    | _ => rfl
  · -- a missing key counts from zero
    refine meets_raise fun val hval => ?_
    obtain rfl := eq_of_int64 hval
    exact meets_make (x := .str _) rfl (Set.mem_singleton (RespValue.integer (0 + delta)).encode)
  · obtain rfl : s = s' := hs
    show Meets libc _ (if (strtoll s).2.headD 0 ≠ 0 then _ else _) _
    by_cases haccepts : (strtoll s).2.headD 0 = 0
    · have hbump : bump delta (some s) = (some (decimalInt ((strtoll s).1 + delta)),
        answer (.integer ((strtoll s).1 + delta))) := if_pos haccepts
      rw [if_neg (not_not_intro haccepts), hbump]
      refine meets_raise fun val hval => ?_
      obtain rfl := eq_of_int64 hval
      exact meets_setValue (.string libc) rfl rfl
    · -- a text that is no number is left alone
      have hbump : bump delta (some s) =
          (some s, refuse (ascii "value is not an integer or out of range")) := if_neg haccepts
      rw [if_pos haccepts, hbump, Option.map_some]
      have hsame : σ.set key (some ⟨.str s, deadlineOf t⟩) = σ := Keyspace.set_same hkey
      show Meets libc _ _ (σ.set key (some ⟨.str s, deadlineOf t⟩), _)
      rw [hsame]
      exact meets_emit (fun _ hd => hd.rel) rfl

/-- `GET` replies the string, or that there is none. -/
theorem meets_get (hlen : 2 ≤ args.length) :
    Meets libc (fun d => StoreRel libc d σ) (cmdGet now args)
      (σ.onKey now.toInt (arg args 1)
        (typed .GET .str Content.str? (Command.onString args .GET))) := by
  rw [cmdGet, needArgs_of_le hlen]
  refine meets_reader (.string libc) (fun v t hother => ?_) (fun _ => rfl) ⟨_, rfl, rfl⟩
    fun s s' t σ hs => ?_
  · cases v <;> first | rfl | cases hother
  · obtain rfl : s = s' := hs
    exact meets_emit (fun _ hd => hd.rel) rfl

/-- `STRLEN` replies the length of the string. -/
theorem meets_strlen (hlen : 2 ≤ args.length) :
    Meets libc (fun d => StoreRel libc d σ) (cmdStrlen now args)
      (σ.onKey now.toInt (arg args 1)
        (typed .STRLEN .str Content.str? (Command.onString args .STRLEN))) := by
  rw [cmdStrlen, needArgs_of_le hlen]
  refine meets_reader (.string libc) (fun v t hother => ?_) (fun _ => rfl) ⟨_, rfl, rfl⟩
    fun s s' t σ hs => ?_
  · cases v <;> first | rfl | cases hother
  · obtain rfl : s = s' := hs
    exact meets_emit (fun _ hd => hd.rel) rfl

/-- `APPEND` writes behind the string, and makes it when the key is missing. -/
theorem meets_append (hlen : 3 ≤ args.length) :
    Meets libc (fun d => StoreRel libc d σ) (cmdAppend now args)
      (σ.onKey now.toInt (arg args 1)
        (typed .APPEND .str Content.str? (Command.onString args .APPEND))) := by
  rw [cmdAppend, needArgs_of_le hlen]
  refine meets_typed (.string libc) (fun v t hother => ?_) ?_ fun s s' t hs hkey => ?_
  · cases v <;> first | rfl | cases hother
  · -- a missing key is made with the suffix alone
    exact meets_make (x := .str _) rfl
      (Set.mem_singleton (RespValue.integer (arg args 2).length).encode)
  · obtain rfl : s = s' := hs
    exact meets_setValue (.string libc) rfl rfl

/-- `INCR` adds one. -/
theorem meets_incr (hlen : 2 ≤ args.length) :
    Meets libc (fun d => StoreRel libc d σ) (cmdIncr now args)
      (σ.onKey now.toInt (arg args 1)
        (typed .INCR .str Content.str? (Command.onString args .INCR))) := by
  rw [cmdIncr, needArgs_of_le hlen]
  exact meets_doIncr rfl 1

/-- `INCRBY` adds the number, if it is one. -/
theorem meets_incrby (hlen : 3 ≤ args.length) :
    Meets libc (fun d => StoreRel libc d σ) (cmdIncrby now args)
      (σ.onKey now.toInt (arg args 1)
        (typed .INCRBY .str Content.str? (Command.onString args .INCRBY))) := by
  rw [cmdIncrby, needArgs_of_le hlen]
  refine meets_raise fun delta hdelta => ?_
  -- what `std::stoll` returned is what the specification adds
  have hby : Command.onString args .INCRBY = bump delta := by
    show bump ((stoll (arg args 2)).toOption.getD 0) = _
    rw [hdelta]
    rfl
  rw [hby]
  exact meets_doIncr rfl delta

/-- `DECR` subtracts one. -/
theorem meets_decr (hlen : 2 ≤ args.length) :
    Meets libc (fun d => StoreRel libc d σ) (cmdDecr now args)
      (σ.onKey now.toInt (arg args 1)
        (typed .DECR .str Content.str? (Command.onString args .DECR))) := by
  rw [cmdDecr, needArgs_of_le hlen]
  exact meets_doIncr rfl (-1)

/-- `DECRBY` adds the number with its sign changed, if that fits. -/
theorem meets_decrby (hlen : 3 ≤ args.length) :
    Meets libc (fun d => StoreRel libc d σ) (cmdDecrby now args)
      (σ.onKey now.toInt (arg args 1)
        (typed .DECRBY .str Content.str? (Command.onString args .DECRBY))) := by
  rw [cmdDecrby, needArgs_of_le hlen]
  refine meets_raise fun delta hdelta => meets_raise fun neg hneg => ?_
  obtain rfl := eq_of_int64 hneg
  -- the sign changed without an overflow
  have hby : Command.onString args .DECRBY = bump (-delta) := by
    show bump (((stoll (arg args 2)).toOption.map fun n => -n).getD 0) = _
    rw [hdelta]
    rfl
  rw [hby]
  exact meets_doIncr rfl (-delta)

/-- **The commands on strings.** -/
theorem meets_strings {c : Command} (htype : c.valueType = some 0) (hlen : c.arity ≤ args.length) :
    Meets libc (fun d => StoreRel libc d σ) (c.handler libc now args)
      (σ.onKey now.toInt (arg args 1) (typed c .str Content.str? (c.onString args))) := by
  cases c with
  | GET => exact meets_get hlen
  | STRLEN => exact meets_strlen hlen
  | APPEND => exact meets_append hlen
  | INCR => exact meets_incr hlen
  | INCRBY => exact meets_incrby hlen
  | DECR => exact meets_decr hlen
  | DECRBY => exact meets_decrby hlen
  | _ => exact absurd htype (by decide)

/-! ### Lists -/

/-- Elements pushed in front one by one stand the other way round. -/
theorem foldl_listLpush (es l : List Bytes) : es.foldl listLpush l = es.reverse ++ l := by
  induction es generalizing l with
  | nil => rfl
  | cons e es ih => rw [List.foldl_cons, ih, List.reverse_cons, List.append_assoc]; rfl

/-- The elements between the bounds are those that `list_range` copies. -/
theorem listRange_eq_between (l : List Bytes) (start stop : Int) (max : ℕ) :
    listRange l start stop max = between l start stop max := by
  rw [listRange_eq, between, List.take_take, min_comm]
  rfl

/-- There is nothing between the bounds of an empty list. -/
theorem between_nil {β : Type} (start stop : Int) (max : ℕ) :
    between ([] : List β) start stop max = [] := by
  rw [between, List.drop_nil, List.take_nil]

/-- No index is inside an empty list. -/
theorem listIndex_nil (index : Int) : listIndex [] index = none :=
  ((listIndex_spec [] index).2).mpr fun h => absurd (h.1.trans_lt h.2) (lt_irrefl _)

/-- `LPUSH` and `RPUSH`. -/
theorem meets_pushWith {c : Command} {push : List Bytes → Bytes → List Bytes} {name : String}
    {pushed : List Bytes → List Bytes} (hc : c.mismatchReply = wrongTypeReply)
    (hlen : 3 ≤ args.length) (hpush : ∀ l, (args.drop 2).foldl push l = pushed l)
    (hf : c.onList args = fun l =>
      (some (pushed (l.getD [])), answer (.integer (pushed (l.getD [])).length))) :
    Meets libc (fun d => StoreRel libc d σ) (pushWith push name now args)
      (σ.onKey now.toInt (arg args 1) (typed c .list Content.list? (c.onList args))) := by
  rw [pushWith, needArgs_of_le hlen, hf]
  refine meets_container (.list libc) (show [] = [] from rfl) rfl (by rw [hc]; rfl)
    fun σ l k t hl hkey => ?_
  obtain rfl : l = k := hl
  refine meets_setValue (.list libc) (hpush l) ?_
  rw [hpush]
  rfl

/-- `LPOP` and `RPOP`: a list that becomes empty goes with its key. -/
theorem meets_popWith {c : Command} {pop : List Bytes → List Bytes × Option Bytes} {name : String}
    (hc : c.mismatchReply = ascii "$-1" ++ crlf) (hlen : 2 ≤ args.length)
    (hnil : pop [] = ([], none))
    (hcons : ∀ l ≠ [], ∃ val, (pop l).2 = some val ∧ (pop l).1.length + 1 = l.length)
    (hf : c.onList args = fun l =>
      (l.bind fun l => if l.length = 1 then none else some (pop l).1,
        answer (.ofOption (pop (l.getD [])).2))) :
    Meets libc (fun d => StoreRel libc d σ) (popWith pop name now args)
      (σ.onKey now.toInt (arg args 1) (typed c .list Content.list? (c.onList args))) := by
  rw [popWith, needArgs_of_le hlen, hf]
  refine meets_typed (.list libc) (fun v t hother => ?_) ?_ fun l k t hl hkey => ?_
  · -- another type is replied like a missing key
    rw [hc]
    cases v <;> first | rfl | cases hother
  · rw [Option.getD_none, hnil]
    exact meets_emit (fun _ hd => hd) rfl
  obtain rfl : l = k := hl
  dsimp only [Kind.list]
  rw [Option.bind_some, Option.getD_some]
  by_cases hempty : l = []
  · -- there is nothing to pop, and the empty list stays
    subst hempty
    rw [hnil]
    have hsame : σ.set (arg args 1) (some ⟨.list [], deadlineOf t⟩) = σ := Keyspace.set_same hkey
    show Meets libc _ _ (σ.set (arg args 1) (some ⟨.list [], deadlineOf t⟩), _)
    rw [hsame]
    exact meets_emit (fun _ hd => hd.rel) rfl
  -- the popped element is the reply, and what is left decides about the key
  obtain ⟨val, hval, hshort⟩ := hcons l hempty
  rcases hpop : pop l with ⟨rest, popped⟩
  rw [hpop] at hval hshort
  obtain rfl : popped = some val := hval
  dsimp only at hshort ⊢
  by_cases hone : l.length = 1
  · have hrest : rest.length = 0 := by omega
    rw [if_pos hone, if_pos hrest]
    refine meets_of_run fun s hs => ⟨_, (RespValue.bulk val).encode, rfl, ?_, rfl, rfl, rfl⟩
    -- the write of the empty list is followed by the deletion of its key
    have hwrite := hs.rel.dictModify (f := Obj.setValue (.list rest)) hs.get
      (e := ⟨.list rest, deadlineOf t⟩) ⟨rfl, rfl⟩
    have hdel := hwrite.dictDel (arg args 1)
    rw [Keyspace.set_set] at hdel
    exact hdel
  · -- the list stays, shorter by one
    have hrest : ¬rest.length = 0 := by omega
    rw [if_neg hone, if_neg hrest]
    refine meets_of_run fun s hs => ⟨_, (RespValue.bulk val).encode, rfl, ?_, rfl, rfl, rfl⟩
    exact hs.rel.dictModify (f := Obj.setValue (.list rest)) hs.get ⟨rfl, rfl⟩

/-- `LPUSH` writes the elements in front, the last one first. -/
theorem meets_lpush (hlen : 3 ≤ args.length) :
    Meets libc (fun d => StoreRel libc d σ) (cmdLpush now args)
      (σ.onKey now.toInt (arg args 1)
        (typed .LPUSH .list Content.list? (Command.onList args .LPUSH))) :=
  meets_pushWith rfl hlen (foldl_listLpush _) rfl

/-- `RPUSH` writes the elements behind. -/
theorem meets_rpush (hlen : 3 ≤ args.length) :
    Meets libc (fun d => StoreRel libc d σ) (cmdRpush now args)
      (σ.onKey now.toInt (arg args 1)
        (typed .RPUSH .list Content.list? (Command.onList args .RPUSH))) :=
  meets_pushWith rfl hlen (foldl_listRpush _) rfl

/-- `LPOP` takes the first element. -/
theorem meets_lpop (hlen : 2 ≤ args.length) :
    Meets libc (fun d => StoreRel libc d σ) (cmdLpop now args)
      (σ.onKey now.toInt (arg args 1)
        (typed .LPOP .list Content.list? (Command.onList args .LPOP))) := by
  refine meets_popWith rfl hlen rfl (fun l hl => ?_) rfl
  obtain ⟨x, xs, rfl⟩ := List.exists_cons_of_ne_nil hl
  exact ⟨x, rfl, rfl⟩

/-- `RPOP` takes the last element. -/
theorem meets_rpop (hlen : 2 ≤ args.length) :
    Meets libc (fun d => StoreRel libc d σ) (cmdRpop now args)
      (σ.onKey now.toInt (arg args 1)
        (typed .RPOP .list Content.list? (Command.onList args .RPOP))) := by
  refine meets_popWith rfl hlen rfl (fun l hl => ?_) rfl
  refine ⟨l.getLast hl, List.getLast?_eq_some_getLast hl, ?_⟩
  have hpos := List.length_pos_of_ne_nil hl
  show l.dropLast.length + 1 = l.length
  rw [List.length_dropLast]
  omega

/-- `LLEN` counts the elements. -/
theorem meets_llen (hlen : 2 ≤ args.length) :
    Meets libc (fun d => StoreRel libc d σ) (cmdLlen now args)
      (σ.onKey now.toInt (arg args 1)
        (typed .LLEN .list Content.list? (Command.onList args .LLEN))) := by
  rw [cmdLlen, needArgs_of_le hlen]
  refine meets_reader (.list libc) (fun v t hother => ?_) (fun _ => rfl) ⟨_, rfl, rfl⟩
    fun l k t σ hl => ?_
  · cases v <;> first | rfl | cases hother
  · obtain rfl : l = k := hl
    exact meets_emit (fun _ hd => hd.rel) rfl

/-- `LRANGE` replies the elements between the bounds that fit into the buffer. -/
theorem meets_lrange (hlen : 4 ≤ args.length) :
    Meets libc (fun d => StoreRel libc d σ) (cmdLrange now args)
      (σ.onKey now.toInt (arg args 1)
        (typed .LRANGE .list Content.list? (Command.onList args .LRANGE))) := by
  rw [cmdLrange, needArgs_of_le hlen]
  refine meets_reader (.list libc) (fun v t hother => ?_) (fun _ => rfl) ⟨_, ?_, rfl⟩
    fun l k t σ hl => ?_
  · cases v <;> first | rfl | cases hother
  · show _ ∈ answer (.array (between [] _ _ _))
    rw [between_nil]
    rfl
  · -- both bounds are numbers, else the handler does not return
    obtain rfl : l = k := hl
    refine meets_raise fun start hstart => meets_raise fun stop hstop => ?_
    refine meets_of_run fun s hs => ⟨_, _, exec_bulks _ s, hs.rel, ?_, rfl, rfl⟩
    show _ ∈ answer (.array (between l (number (arg args 2)) (number (arg args 3)) _))
    rw [number_of_stoll hstart, number_of_stoll hstop, ← listRange_eq_between]
    rfl

/-- `LINDEX` replies the element at the index. -/
theorem meets_lindex (hlen : 3 ≤ args.length) :
    Meets libc (fun d => StoreRel libc d σ) (cmdLindex now args)
      (σ.onKey now.toInt (arg args 1)
        (typed .LINDEX .list Content.list? (Command.onList args .LINDEX))) := by
  rw [cmdLindex, needArgs_of_le hlen]
  refine meets_reader (.list libc) (fun v t hother => ?_) (fun _ => rfl) ⟨_, ?_, rfl⟩
    fun l k t σ hl => ?_
  · cases v <;> first | rfl | cases hother
  · show _ ∈ answer (.ofOption (listIndex [] _))
    rw [listIndex_nil]
    rfl
  · obtain rfl : l = k := hl
    refine meets_raise fun index hindex => ?_
    show Meets libc _ _ (σ, answer (.ofOption (listIndex l (number (arg args 2)))))
    rw [number_of_stoll hindex]
    cases listIndex l index with
    | none => exact meets_emit (fun _ hd => hd.rel) rfl
    | some val => exact meets_emit (fun _ hd => hd.rel) rfl

/-- **The commands on lists.** -/
theorem meets_lists {c : Command} (htype : c.valueType = some 1) (hlen : c.arity ≤ args.length) :
    Meets libc (fun d => StoreRel libc d σ) (c.handler libc now args)
      (σ.onKey now.toInt (arg args 1) (typed c .list Content.list? (c.onList args))) := by
  cases c with
  | LPUSH => exact meets_lpush hlen
  | RPUSH => exact meets_rpush hlen
  | LPOP => exact meets_lpop hlen
  | RPOP => exact meets_rpop hlen
  | LLEN => exact meets_llen hlen
  | LRANGE => exact meets_lrange hlen
  | LINDEX => exact meets_lindex hlen
  | _ => exact absurd htype (by decide)

/-! ### Hashes -/

/-- An even number of arguments is put back together from its pairs. -/
theorem pairArgs_argPairs (xs : List Bytes) (heven : xs.length % 2 = 0) :
    pairArgs (argPairs xs) = xs := by
  fun_induction argPairs xs with
  | case1 a b rest ih =>
    rw [List.length_cons, List.length_cons] at heven
    show a :: b :: pairArgs (argPairs rest) = _
    rw [ih (by omega)]
  | case2 xs hshort =>
    -- at most one argument, and an even number of them
    cases xs with
    | nil => rfl
    | cons a rest =>
      cases rest with
      | nil => exact absurd heven (by simp)
      | cons b rest => exact absurd rfl (hshort a b rest)

/-- Behind the name and the key there are pairs. -/
theorem even_drop_two (heven : args.length % 2 = 0) : (args.drop 2).length % 2 = 0 := by
  rw [List.length_drop]
  omega

/-- Where nothing is, nothing is counted. -/
theorem size_none {β : Type} : size (fun _ => (none : Option β)) = 0 :=
  (DictRel.size_eq DictRel.fresh).symm

/-- There is nothing to clear where nothing is. -/
theorem dropKeys_none {β : Type} (keys : List Bytes) :
    dropKeys keys (fun _ => (none : Option β)) = fun _ => none :=
  funext fun _ => ite_self _

/-- The keys are cleared one after the other. -/
theorem dropKeys_cons {β : Type} (key : Bytes) (keys : List Bytes) (m : Bytes → Option β) :
    dropKeys (key :: keys) m = dropKeys keys (Function.update m key none) := by
  funext k
  by_cases hk : k = key
  · subst hk
    simp [dropKeys]
  · simp [dropKeys, hk]

/-- The loop of `HDEL` clears the fields. -/
theorem hdelLoop_get {h : Dict Bytes} {m : Bytes → Option Bytes} (hm : DictRel h m)
    (fields : List Bytes) (count : ℕ) :
    DictRel (fields.foldl hdelCount (h, count)).1 (dropKeys fields m) := by
  induction fields generalizing h m count with
  | nil => exact hm
  | cons field fields ih =>
    have hnext := (hm.step (.del field)).1
    rw [dropKeys_cons]
    exact ih hnext (if (htableDel h field).2 then count + 1 else count)

/-- The entries that fit into the buffers. -/
theorem lists_take {h : Dict Bytes} {m : Bytes → Option Bytes} (hm : DictRel h m) (max : ℕ) :
    Lists m max (h.visits.take max) := by
  obtain ⟨hnodup, hvisits⟩ := hm.visits_spec
  have hlen : h.visits.length = size m := by
    rw [size, ← hm.size_eq, dictSize, hm.wf.count_eq, Dict.visits, List.length_map]
  refine ⟨?_, fun p hp => (hvisits p.1 p.2).mp (List.mem_of_mem_take hp), ?_⟩
  · rw [List.map_take]
    exact hnodup.sublist (List.take_sublist _ _)
  · rw [List.length_take, hlen]

/-- Where nothing is, nothing is listed. -/
theorem lists_none {β : Type} (max : ℕ) : Lists (fun _ => (none : Option β)) max [] where
  nodup := List.nodup_nil
  mem _ hp := absurd hp List.not_mem_nil
  length := by rw [size_none, Nat.min_zero, List.length_nil]

/-- Two bulk strings. -/
theorem exec_two (a b : Bytes) (s : Session) :
    exec (do replyBulk a; replyBulk b) s =
      (.ok (), { s with writeBuf := s.writeBuf ++ stream respBulk [a, b] }) := by
  rw [exec_bind_ok (exec_replyBulk a s), exec_replyBulk]
  dsimp only
  rw [List.append_assoc, ← stream_append]
  rfl

/-- `HGETALL`, `HKEYS` and `HVALS`, by what they reply of one entry. -/
theorem meets_hlistWith {c : Command} {width : ℕ} {reply : Bytes × Bytes → Cmd Unit} {name : String}
    {g : Bytes × Bytes → List Bytes} (hc : c.mismatchReply = ascii "*" ++ decimal 0 ++ crlf)
    (hlen : 2 ≤ args.length)
    (hreply : ∀ p s, exec (reply p) s =
      (.ok (), { s with writeBuf := s.writeBuf ++ stream respBulk (g p) }))
    (hwidth : ∀ p, (g p).length = width)
    (hf : c.onHash args = fun h => (h, {r | ∃ ps, Lists (h.getD fun _ => none) ENTRY_BUFFER ps ∧
      r ∈ answer (.array (ps.flatMap g))})) :
    Meets libc (fun d => StoreRel libc d σ) (hlistWith width reply name now args)
      (σ.onKey now.toInt (arg args 1) (typed c .hash Content.hash? (c.onHash args))) := by
  have hcount : ∀ ps : List (Bytes × Bytes), ps.length * width = (ps.flatMap g).length := by
    intro ps
    rw [List.length_flatMap, List.map_congr_left fun p _ => hwidth p, List.map_const',
      List.sum_replicate, smul_eq_mul]
  rw [hlistWith, needArgs_of_le hlen, hf]
  refine meets_reader (.hash libc) (fun v t hother => ?_) (fun _ => rfl)
    ⟨(RespValue.array []).encode, ⟨[], lists_none _, rfl⟩, rfl⟩ fun h m t σ hm => ?_
  · -- another type is replied like an empty hash
    rw [hc]
    cases v <;> first | rfl | cases hother
  · -- the callback collects the entries in the order of the visits
    have hcollect : htableGetall h 4096 = h.visits.take ENTRY_BUFFER := dictEach_collectCb h 4096
    refine meets_of_run fun s hs => ⟨_, _, exec_array hreply (hcount _) s, hs.rel, ?_, rfl, rfl⟩
    exact ⟨_, hcollect ▸ lists_take hm ENTRY_BUFFER, rfl⟩

/-- `HSET` writes the fields, and counts the new ones. -/
theorem meets_hset (hlen : 4 ≤ args.length) (heven : args.length % 2 = 0) :
    Meets libc (fun d => StoreRel libc d σ) (cmdHset now args)
      (σ.onKey now.toInt (arg args 1)
        (typed .HSET .hash Content.hash? (Command.onHash args .HSET))) := by
  rw [cmdHset, needPairs_of_pairs ⟨hlen, heven⟩]
  refine meets_container (.hash libc) DictRel.fresh rfl rfl
    fun σ h m t hm hkey => ?_
  have hpairs := pairArgs_argPairs (args.drop 2) (even_drop_two heven)
  obtain ⟨hwf, hget, hsize⟩ := hsetLoop_spec (argPairs (args.drop 2)) hm.wf 0
  rw [hpairs] at hwf hget hsize
  -- the last value of each field, on top of what was there
  have hrel : DictRel (hsetLoop h 0 (args.drop 2)).1
      (fun field => (lastValue (argPairs (args.drop 2)) field).or (m field)) :=
    ⟨hwf, funext fun field => by rw [hget, hm.get]⟩
  refine meets_setValue (.hash libc) hrel ?_
  -- the loop counts by how much the hash has grown
  have hcount : ((hsetLoop h 0 (args.drop 2)).2 : ℤ) =
      size (fun field => (lastValue (argPairs (args.drop 2)) field).or (m field)) - size m := by
    rw [size, ← hrel.size_eq, size, ← hm.size_eq]
    omega
  rw [hcount]
  rfl

/-- `HDEL` clears the fields, and counts those that were there. -/
theorem meets_hdel (hlen : 3 ≤ args.length) :
    Meets libc (fun d => StoreRel libc d σ) (cmdHdel now args)
      (σ.onKey now.toInt (arg args 1)
        (typed .HDEL .hash Content.hash? (Command.onHash args .HDEL))) := by
  rw [cmdHdel, needArgs_of_le hlen]
  refine meets_typed (.hash libc) (fun v t hother => ?_) ?_ fun h m t hm hkey => ?_
  · cases v <;> first | rfl | cases hother
  · -- nothing is counted where nothing is
    refine meets_emit (fun _ hd => hd) ?_
    show _ ∈ answer (.integer (size (fun _ => (none : Option Bytes)) -
      size (dropKeys (args.drop 2) fun _ => (none : Option Bytes))))
    rw [dropKeys_none, sub_self]
    rfl
  · have hrel := hdelLoop_get hm (args.drop 2) 0
    obtain ⟨-, hsize⟩ := hdelLoop_spec (args.drop 2) hm.wf 0
    refine meets_setValue (.hash libc) hrel ?_
    -- the loop counts by how much the hash has shrunk
    have hcount : (((args.drop 2).foldl hdelCount (h, 0)).2 : ℤ) =
        size m - size (dropKeys (args.drop 2) m) := by
      rw [size, ← hm.size_eq, size, ← hrel.size_eq]
      omega
    rw [hcount]
    rfl

/-- `HGET` replies the value of the field. -/
theorem meets_hget (hlen : 3 ≤ args.length) :
    Meets libc (fun d => StoreRel libc d σ) (cmdHget now args)
      (σ.onKey now.toInt (arg args 1)
        (typed .HGET .hash Content.hash? (Command.onHash args .HGET))) := by
  rw [cmdHget, needArgs_of_le hlen]
  refine meets_reader (.hash libc) (fun v t hother => ?_) (fun _ => rfl) ⟨_, rfl, rfl⟩
    fun h m t σ hm => ?_
  · cases v <;> first | rfl | cases hother
  · have hget : htableGet h (arg args 2) = m (arg args 2) := congrFun hm.get _
    dsimp only [Kind.hash]
    show Meets libc _ _ (σ, answer (.ofOption (m (arg args 2))))
    rw [hget]
    cases m (arg args 2) with
    | none => exact meets_emit (fun _ hd => hd.rel) rfl
    | some val => exact meets_emit (fun _ hd => hd.rel) rfl

/-- `HEXISTS` replies whether the field is there. -/
theorem meets_hexists (hlen : 3 ≤ args.length) :
    Meets libc (fun d => StoreRel libc d σ) (cmdHexists now args)
      (σ.onKey now.toInt (arg args 1)
        (typed .HEXISTS .hash Content.hash? (Command.onHash args .HEXISTS))) := by
  rw [cmdHexists, needArgs_of_le hlen]
  refine meets_reader (.hash libc) (fun v t hother => ?_) (fun _ => rfl) ⟨_, rfl, rfl⟩
    fun h m t σ hm => ?_
  · cases v <;> first | rfl | cases hother
  · have hget : htableExists h (arg args 2) = (m (arg args 2)).isSome :=
      congrArg Option.isSome (congrFun hm.get _)
    show Meets libc _ (replyInteger (if htableExists h (arg args 2) then 1 else 0)) _
    rw [hget]
    exact meets_emit (fun _ hd => hd.rel) rfl

/-- `HLEN` counts the fields. -/
theorem meets_hlen (hlen : 2 ≤ args.length) :
    Meets libc (fun d => StoreRel libc d σ) (cmdHlen now args)
      (σ.onKey now.toInt (arg args 1)
        (typed .HLEN .hash Content.hash? (Command.onHash args .HLEN))) := by
  rw [cmdHlen, needArgs_of_le hlen]
  refine meets_reader (.hash libc) (fun v t hother => ?_) (fun _ => rfl) ⟨_, ?_, rfl⟩
    fun h m t σ hm => ?_
  · cases v <;> first | rfl | cases hother
  · show _ ∈ answer (.integer (size fun _ => (none : Option Bytes)))
    rw [size_none]
    rfl
  · refine meets_emit (fun _ hd => hd.rel) ?_
    show _ ∈ answer (.integer (size m))
    rw [size, ← hm.size_eq]
    rfl

/-- `HGETALL` lists fields and values. -/
theorem meets_hgetall (hlen : 2 ≤ args.length) :
    Meets libc (fun d => StoreRel libc d σ) (cmdHgetall now args)
      (σ.onKey now.toInt (arg args 1)
        (typed .HGETALL .hash Content.hash? (Command.onHash args .HGETALL))) :=
  meets_hlistWith rfl hlen (fun p => exec_two p.1 p.2) (fun _ => rfl) rfl

/-- `HKEYS` lists the fields. -/
theorem meets_hkeys (hlen : 2 ≤ args.length) :
    Meets libc (fun d => StoreRel libc d σ) (cmdHkeys now args)
      (σ.onKey now.toInt (arg args 1)
        (typed .HKEYS .hash Content.hash? (Command.onHash args .HKEYS))) := by
  refine meets_hlistWith rfl hlen (fun p => exec_replyBulk p.1) (fun _ => rfl) ?_
  simp only [← List.map_eq_flatMap]
  rfl

/-- `HVALS` lists the values. -/
theorem meets_hvals (hlen : 2 ≤ args.length) :
    Meets libc (fun d => StoreRel libc d σ) (cmdHvals now args)
      (σ.onKey now.toInt (arg args 1)
        (typed .HVALS .hash Content.hash? (Command.onHash args .HVALS))) := by
  refine meets_hlistWith rfl hlen (fun p => exec_replyBulk p.2) (fun _ => rfl) ?_
  simp only [← List.map_eq_flatMap]
  rfl

/-- **The commands on hashes.** -/
theorem meets_hashes {c : Command} (htype : c.valueType = some 2) (hlen : c.arity ≤ args.length)
    (heven : c.inPairs = true → args.length % 2 = 0) :
    Meets libc (fun d => StoreRel libc d σ) (c.handler libc now args)
      (σ.onKey now.toInt (arg args 1) (typed c .hash Content.hash? (c.onHash args))) := by
  cases c with
  | HSET => exact meets_hset hlen (heven rfl)
  | HDEL => exact meets_hdel hlen
  | HGET => exact meets_hget hlen
  | HEXISTS => exact meets_hexists hlen
  | HLEN => exact meets_hlen hlen
  | HGETALL => exact meets_hgetall hlen
  | HKEYS => exact meets_hkeys hlen
  | HVALS => exact meets_hvals hlen
  | _ => exact absurd htype (by decide)

/-! ### Sorted sets -/

/-- The table has one entry for each member. -/
theorem ZRel.dictRel {z : ZSet} {M : Bytes → Option Double} (h : ZRel libc z M) :
    DictRel z.ht fun m => (M m).map libc.printG17 := ⟨h.wf, h.get⟩

/-- A change of the values changes no count. -/
theorem size_map {β γ : Type} (f : β → γ) (m : Bytes → Option β) :
    size (fun k => (m k).map f) = size m := by
  rw [size, size]
  congr 1
  ext k
  simp

/-- The number of members is the number of entries of the table. -/
theorem ZRel.size_eq {z : ZSet} {M : Bytes → Option Double} (h : ZRel libc z M) :
    dictSize z.ht = size M := by
  rw [h.dictRel.size_eq, ← size_map libc.printG17 M]
  rfl

/-- `zset_card` counts the members, too. -/
theorem ZRel.card_eq {z : ZSet} {M : Bytes → Option Double} (h : ZRel libc z M) :
    zsetCard z = size M := by
  obtain ⟨C, hC, ho, hM⟩ := h.sl
  rw [size, ← length_eq_ncard ho hM]
  exact hC.length_eq

/-- A removal makes the set smaller when the member is there. -/
theorem ZRel.size_update {z : ZSet} {M : Bytes → Option Double} (h : ZRel libc z M)
    (member : Bytes) :
    size (Function.update M member none) + (if (M member).isSome then 1 else 0) = size M := by
  have hdel := (h.dictRel.step (.del member)).1
  have hfound : (dictDel z.ht member).2 = (M member).isSome := by
    rw [(dictDel_spec h.wf member).2.2, h.get, Option.isSome_map]
  have hone := size_dictDel h.wf member
  have hmap : Function.update (fun m => (M m).map libc.printG17) member none =
      fun m => (Function.update M member none m).map libc.printG17 :=
    (Function.comp_update (Option.map libc.printG17) M member none).symm
  rw [hfound, h.size_eq] at hone
  rw [← hone, ← size_map libc.printG17 (Function.update M member none), ← hmap]
  exact congrArg (· + _) hdel.size_eq.symm

/-- The loop of `ZREM` clears the members, and counts those that were there. -/
theorem zremLoop_rel (hlibc : libc.Exact) (members : List Bytes) {z : ZSet}
    {M : Bytes → Option Double} (h : ZRel libc z M) (count : ℕ) :
    ZRel libc (members.foldl (zremCount libc) (z, count)).1 (dropKeys members M) ∧
      size (dropKeys members M) + (members.foldl (zremCount libc) (z, count)).2 =
        size M + count := by
  induction members generalizing z M count with
  | nil => exact ⟨h, rfl⟩
  | cons member members ih =>
    obtain ⟨hnext, hfound⟩ := h.step (s := (z, fun _ => false)) hlibc (.rem member) trivial
    have hfound : (zsetRem libc z member).2 = (M member).isSome := hfound
    have hone := h.size_update member
    obtain ⟨hrest, hcount⟩ := ih hnext (if (zsetRem libc z member).2 then count + 1 else count)
    have hupdate : (ZSetOp.onMap M (.rem member)).1 = Function.update M member none := rfl
    -- what one removal counts is by how much the set has shrunk
    rw [hupdate, ← dropKeys_cons] at hrest hcount
    refine ⟨hrest, hcount.trans ?_⟩
    rw [hfound]
    split_ifs at hone ⊢ <;> omega

/-- A loop of `ZADD` that returns has counted the pairs, and replied nothing. -/
theorem zaddLoop_returns {pairs : List Bytes} {z : ZSet} {added n : ℕ} {s s' : Session}
    (hrun : exec (zaddLoop libc key z added pairs) s = (.ok n, s')) :
    n = added + (convertedPairs libc pairs).length ∧ s'.writeBuf = s.writeBuf ∧
      s'.host = s.host := by
  fun_induction zaddLoop libc key z added pairs generalizing s with
  | case1 z added score member rest ih =>
    rw [convertedPairs]
    cases hstod : libc.stod score with
    | error e =>
      rw [hstod] at hrun
      exact absurd (congrArg Prod.fst hrun) (by simp [raise])
    | ok x =>
      rw [hstod, exec_raise_ok_bind, exec_bind, run_dbZsetAdd] at hrun
      obtain ⟨rfl, hsame⟩ := ih _ hrun
      refine ⟨?_, hsame⟩
      dsimp only
      rw [List.length_cons, Nat.add_right_comm, Nat.add_assoc]
  | case2 pairs z added hpairs =>
    obtain ⟨hn, rfl⟩ := Prod.mk.inj hrun
    rw [convertedPairs.eq_2 libc pairs hpairs]
    exact ⟨(Except.ok.inj hn).symm, rfl, rfl⟩

/-- The places of a member in the skip list and in the order are the same. -/
theorem zsetRank_eq {z : ZSet} {M : Bytes → Option Double} (h : ZRel libc z M) (member : Bytes) :
    zsetRank z member =
      (M (cstr member)).elim (-1) fun score => (rankIn M (cstr member, score) : Int) := by
  obtain ⟨C, hC, ho, hM⟩ := h.sl
  have hcstr : NulFree (cstr member) := nulFree_cstr member
  have hsame : ∀ c : Bytes × Double,
      decide (strcmp c.1 member = 0) = decide (strcmp c.1 (cstr member) = 0) := by
    intro c
    simp only [strcmp_eq_zero_iff, hcstr.cstr_eq]
  rw [zsetRank, slGetRank_holds hC]
  simp only [hsame]
  refine (findIdx_eq_rankIn ho hM hcstr).trans ?_
  cases M (cstr member) <;> rfl

/-- The entries of an ordered skip list stand in the order of the specification. -/
theorem inOrder_of_ordered {C : List (Bytes × Double)} {M : Bytes → Option Double}
    (ho : Ordered C) (hM : Denotes C M) : InOrder M C where
  sorted := ho.sorted.imp_of_mem fun ha hb hlt => (scoreLess_iff (ho.nulFree _ ha)
    (ho.nulFree _ hb) (ho.number _ ha) (ho.number _ hb)).mpr hlt
  mem c := hM c.1 c.2

/-- Where nothing is, the order is empty. -/
theorem inOrder_none : InOrder (fun _ => none) [] where
  sorted := List.Pairwise.nil
  mem _ := iff_of_false List.not_mem_nil (by simp)

/-- One member is replied in one or two steps. -/
theorem exec_zrangeReply (libc : Libc) (withscores : Bool) (c : Bytes × Double) (s : Session) :
    exec (zrangeReply libc withscores c) s =
      (.ok (), { s with
        writeBuf := s.writeBuf ++ stream respBulk (zrangeItems libc withscores c) }) := by
  cases withscores with
  | true => exact exec_two _ _ s
  | false => exact exec_bind_ok (exec_replyBulk (cstr c.1) s)

/-- `ZADD` sets the scores, if every member is a C string and every score a number. -/
theorem meets_zadd (hlibc : libc.Exact) (hlen : 4 ≤ args.length) (heven : args.length % 2 = 0)
    (hplain : ∀ p ∈ convertedPairs libc (args.drop 2), NulFree p.1 ∧ p.2.isNaN = false) :
    Meets libc (fun d => StoreRel libc d σ) (cmdZadd libc now args)
      (σ.onKey now.toInt (arg args 1)
        (typed .ZADD .zset Content.zset? (Command.onZSet libc args .ZADD))) := by
  rw [cmdZadd, needPairs_of_pairs ⟨hlen, heven⟩]
  refine meets_container (.zset libc) ZRel.fresh rfl rfl
    fun σ z M t hz hkey => ?_
  intro s s' hs hrun
  -- the loop has returned, and what it leaves is known
  have hloop := zaddLoop_spec libc (args.drop 2) z 0 hs.rel.wf hs.get
  rcases hexec : exec (zaddLoop libc (arg args 1) z 0 (args.drop 2)) s with ⟨e | n, t'⟩
  · -- a loop that was left early is a handler that did not return
    rw [exec_bind, hexec] at hrun
    exact absurd (congrArg Prod.fst hrun) (by simp)
  · rw [exec_bind_ok hexec] at hrun
    rw [hexec] at hloop
    obtain ⟨-, rfl⟩ := Prod.mk.inj hrun
    obtain ⟨rfl, hbuf, hhost⟩ := zaddLoop_returns hexec
    have hrel := ZRel.build hlibc hplain s.coins hz
    refine ⟨hs.rel.update hloop.1 hloop.2 (.some ⟨hrel, rfl⟩), ⟨_, rfl, ?_⟩, hhost⟩
    dsimp only
    rw [hbuf, Nat.zero_add]
    rfl

/-- `ZREM` clears the members, and counts those that were there. -/
theorem meets_zrem (hlibc : libc.Exact) (hlen : 3 ≤ args.length) :
    Meets libc (fun d => StoreRel libc d σ) (cmdZrem libc now args)
      (σ.onKey now.toInt (arg args 1)
        (typed .ZREM .zset Content.zset? (Command.onZSet libc args .ZREM))) := by
  rw [cmdZrem, needArgs_of_le hlen]
  refine meets_typed (.zset libc) (fun v t hother => ?_) ?_ fun z M t hz hkey => ?_
  · cases v <;> first | rfl | cases hother
  · -- nothing is counted where nothing is
    refine meets_emit (fun _ hd => hd) ?_
    show _ ∈ answer (.integer (size (fun _ => (none : Option Double)) -
      size (dropKeys (args.drop 2) fun _ => (none : Option Double))))
    rw [dropKeys_none, sub_self]
    rfl
  · obtain ⟨hrel, hsize⟩ := zremLoop_rel hlibc (args.drop 2) hz 0
    refine meets_setValue (.zset libc) hrel ?_
    -- the loop counts by how much the set has shrunk
    have hcount : (((args.drop 2).foldl (zremCount libc) (z, 0)).2 : ℤ) =
        size M - size (dropKeys (args.drop 2) M) := by omega
    rw [hcount]
    rfl

/-- `ZSCORE` replies the score of the member. -/
theorem meets_zscore (hlibc : libc.Exact) (hlen : 3 ≤ args.length) :
    Meets libc (fun d => StoreRel libc d σ) (cmdZscore libc now args)
      (σ.onKey now.toInt (arg args 1)
        (typed .ZSCORE .zset Content.zset? (Command.onZSet libc args .ZSCORE))) := by
  rw [cmdZscore, needArgs_of_le hlen]
  refine meets_reader (.zset libc) (fun v t hother => ?_) (fun _ => rfl) ⟨_, rfl, rfl⟩
    fun z M t σ hz => ?_
  · cases v <;> first | rfl | cases hother
  · have hscore : zsetScore libc z (arg args 2) = M (arg args 2) := hz.score_eq hlibc _
    dsimp only [Kind.zset]
    show Meets libc _ _ (σ, answer (.ofOption ((M (arg args 2)).map libc.printG17)))
    rw [hscore]
    cases M (arg args 2) with
    | none => exact meets_emit (fun _ hd => hd.rel) rfl
    | some score => exact meets_emit (fun _ hd => hd.rel) rfl

/-- `ZRANGE` replies the members between the bounds, in order, that fit into the buffer. -/
theorem meets_zrange (hlen : 4 ≤ args.length) :
    Meets libc (fun d => StoreRel libc d σ) (cmdZrange libc now args)
      (σ.onKey now.toInt (arg args 1)
        (typed .ZRANGE .zset Content.zset? (Command.onZSet libc args .ZRANGE))) := by
  rw [cmdZrange, needArgs_of_le hlen]
  refine meets_reader (.zset libc) (fun v t hother => ?_) (fun _ => rfl)
    ⟨(RespValue.array []).encode, ⟨[], inOrder_none, ?_⟩, rfl⟩ fun z M t σ hz => ?_
  · cases v <;> first | rfl | cases hother
  · rw [between_nil]
    rfl
  · obtain ⟨C, hC, ho, hM⟩ := hz.sl
    refine meets_raise fun start hstart => meets_raise fun stop hstop => ?_
    have hout : zsetRange z start stop 4096 = between C start stop ENTRY_BUFFER :=
      slRangeByRank_holds hC start stop 4096
    -- every member is a C string
    have hitems : (between C start stop ENTRY_BUFFER).flatMap
        (zrangeItems libc (withScores args)) =
        (between C start stop ENTRY_BUFFER).flatMap fun c =>
          if withScores args then [c.1, libc.printG17 c.2] else [c.1] := by
      refine List.flatMap_congr fun c hc => ?_
      rw [zrangeItems, (ho.nulFree c (List.mem_of_mem_drop (List.mem_of_mem_take hc))).cstr_eq]
    -- the announced length is the number of replied strings
    have hlength : (if withScores args then (zsetRange z start stop 4096).length * 2
        else (zsetRange z start stop 4096).length) =
        ((zsetRange z start stop 4096).flatMap (zrangeItems libc (withScores args))).length := by
      rw [List.length_flatMap, List.map_congr_left fun c _ => length_zrangeItems libc _ c,
        List.map_const', List.sum_replicate, smul_eq_mul]
      cases withScores args <;> simp
    refine meets_of_run fun s hs =>
      ⟨_, _, exec_array (fun c s => ?_) hlength s, hs.rel, ?_, rfl, rfl⟩
    · exact exec_zrangeReply libc (withScores args) c s
    · refine ⟨C, inOrder_of_ordered ho hM, ?_⟩
      rw [number_of_stoll hstart, number_of_stoll hstop, ← hitems, hout]
      rfl

/-- `ZRANK` replies the place of the member in the order. -/
theorem meets_zrank (hlen : 3 ≤ args.length) :
    Meets libc (fun d => StoreRel libc d σ) (cmdZrank now args)
      (σ.onKey now.toInt (arg args 1)
        (typed .ZRANK .zset Content.zset? (Command.onZSet libc args .ZRANK))) := by
  rw [cmdZrank, needArgs_of_le hlen]
  refine meets_reader (.zset libc) (fun v t hother => ?_) (fun _ => rfl) ⟨_, rfl, rfl⟩
    fun z M t σ hz => ?_
  · cases v <;> first | rfl | cases hother
  · -- `zset_rank` returns -1 for a member that is not there
    show Meets libc _ (if zsetRank z (arg args 2) < 0 then replyNullBulk
      else replyInteger (zsetRank z (arg args 2)))
      (σ, answer ((M (cstr (arg args 2))).elim .nullBulk fun score =>
        .integer (rankIn M (cstr (arg args 2), score))))
    rw [zsetRank_eq hz]
    cases M (cstr (arg args 2)) with
    | none => exact meets_emit (fun _ hd => hd.rel) rfl
    | some score =>
      rw [Option.elim_some, if_neg (not_lt.mpr (Int.natCast_nonneg _))]
      exact meets_emit (fun _ hd => hd.rel) rfl

/-- `ZCARD` counts the members. -/
theorem meets_zcard (hlen : 2 ≤ args.length) :
    Meets libc (fun d => StoreRel libc d σ) (cmdZcard now args)
      (σ.onKey now.toInt (arg args 1)
        (typed .ZCARD .zset Content.zset? (Command.onZSet libc args .ZCARD))) := by
  rw [cmdZcard, needArgs_of_le hlen]
  refine meets_reader (.zset libc) (fun v t hother => ?_) (fun _ => rfl) ⟨_, ?_, rfl⟩
    fun z M t σ hz => ?_
  · cases v <;> first | rfl | cases hother
  · show _ ∈ answer (.integer (size fun _ => (none : Option Double)))
    rw [size_none]
    rfl
  · refine meets_emit (fun _ hd => hd.rel) ?_
    show _ ∈ answer (.integer (size M))
    rw [← hz.card_eq]
    rfl

/-- **The commands on sorted sets.** -/
theorem meets_zsets (hlibc : libc.Exact) {c : Command} (htype : c.valueType = some 3)
    (hlen : c.arity ≤ args.length) (heven : c.inPairs = true → args.length % 2 = 0)
    (hplain : c = .ZADD →
      ∀ p ∈ convertedPairs libc (args.drop 2), NulFree p.1 ∧ p.2.isNaN = false) :
    Meets libc (fun d => StoreRel libc d σ) (c.handler libc now args)
      (σ.onKey now.toInt (arg args 1) (typed c .zset Content.zset? (c.onZSet libc args))) := by
  cases c with
  | ZADD => exact meets_zadd hlibc hlen (heven rfl) (hplain rfl)
  | ZREM => exact meets_zrem hlibc hlen
  | ZSCORE => exact meets_zscore hlibc hlen
  | ZRANGE => exact meets_zrange hlen
  | ZRANK => exact meets_zrank hlen
  | ZCARD => exact meets_zcard hlen
  | _ => exact absurd htype (by decide)

/-! ### The commands on several keys -/

/-- A second look at what is live of a key sees the same. -/
theorem Keyspace.live_set_live (now : ℤ) (σ : Keyspace) (key : Bytes) :
    (σ.set key (σ.live now key)).live now = σ.live now := by
  funext k
  by_cases hk : k = key
  · subst hk
    rw [live, set_self, live, Option.filter_filter]
    simp
  · rw [live, set, Function.update_of_ne hk]
    rfl

/-- The loop of `DEL` clears the keys. -/
theorem delLoop_rel (keys : List Bytes) (count : ℕ) {s : Session} (hs : StoreRel libc s.dict σ) :
    StoreRel libc (exec (keys.foldlM delCount count) s).2.dict (dropKeys keys σ) := by
  induction keys generalizing count s σ with
  | nil => exact hs
  | cons key keys ih =>
    have hrun : exec (delCount count key) s =
        (.ok (if (dictDel s.dict key).2 then count + 1 else count),
          { s with dict := (dictDel s.dict key).1 }) := by
      rw [delCount, exec_bind, exec_dbDel]
      cases (dictDel s.dict key).2 <;> rfl
    rw [List.foldlM_cons, exec_bind_ok hrun, dropKeys_cons]
    exact ih _ (s := { s with dict := (dictDel s.dict key).1 }) (hs.dictDel key)

/-- The loop of `EXISTS` checks the keys and counts the live ones. -/
theorem existsLoop_rel (now : Int64) (keys : List Bytes) (count : ℕ) {s : Session}
    (hs : StoreRel libc s.dict σ) :
    ∃ d, exec (keys.foldlM (existsCount now) count) s =
        (.ok (count + keys.countP fun k => (σ.live now.toInt k).isSome), { s with dict := d }) ∧
      StoreRel libc d fun k => if k ∈ keys then σ.live now.toInt k else σ k := by
  induction keys generalizing count s σ with
  | nil => exact ⟨s.dict, rfl, by simpa using hs⟩
  | cons key keys ih =>
    have hlive := hs.live now key
    have hrun : exec (existsCount now count key) s =
        (.ok (count + if (σ.live now.toInt key).isSome then 1 else 0),
          { s with dict := (checkExpiry now s.dict key).1 }) := by
      rw [existsCount, exec_withKey hs.wf]
      generalize live now s.dict key = x at hlive ⊢
      generalize σ.live now.toInt key = y at hlive ⊢
      cases hlive <;> rfl
    obtain ⟨d, hrest, hrel⟩ := ih (count + if (σ.live now.toInt key).isSome then 1 else 0)
      (s := { s with dict := (checkExpiry now s.dict key).1 }) (hs.check now key)
    refine ⟨d, ?_, ?_⟩
    · rw [List.foldlM_cons, exec_bind_ok hrun, hrest, Keyspace.live_set_live, List.countP_cons,
        Nat.add_assoc, Nat.add_comm (ite _ _ _)]
    · -- what the first look has settled, the later ones find settled
      have hset : (fun k => if k ∈ keys then (σ.set key (σ.live now.toInt key)).live now.toInt k
          else σ.set key (σ.live now.toInt key) k) =
          fun k => if k ∈ key :: keys then σ.live now.toInt k else σ k := by
        funext k
        rw [Keyspace.live_set_live]
        by_cases hk : k = key
        · subst hk
          simp [Keyspace.set]
        · simp [Keyspace.set, hk]
      rwa [hset] at hrel

/-- `KEYS` replies the stored keys that match. -/
theorem keys_filter {d : Dict Obj} (h : StoreRel libc d σ) (pattern : Bytes) :
    ((d.visits.map Prod.fst).filter fun key => globMatch pattern (cstr key)).Nodup ∧
      ∀ k, k ∈ (d.visits.map Prod.fst).filter (fun key => globMatch pattern (cstr key)) ↔
        σ k ≠ none ∧ globMatch pattern (cstr k) = true := by
  obtain ⟨hnodup, hvisits⟩ := DictRel.visits_spec ⟨h.wf, rfl⟩
  refine ⟨hnodup.filter _, fun k => ?_⟩
  have hstored : k ∈ d.visits.map Prod.fst ↔ σ k ≠ none := by
    rw [← Option.isSome_iff_ne_none, ← h.isSome_eq k, Option.isSome_iff_exists, List.mem_map]
    constructor
    · rintro ⟨⟨_, o⟩, hmem, rfl⟩
      exact ⟨o, (hvisits _ o).mp hmem⟩
    · rintro ⟨o, hget⟩
      exact ⟨(k, o), (hvisits k o).mpr hget, rfl⟩
  rw [List.mem_filter, hstored]

/-! ### Deadlines -/

/-- A time that fits is stored as it is, but 0 is none. -/
theorem deadlineOf_ofInt {t : ℤ} (hfits : LLONG_MIN ≤ t ∧ t ≤ LLONG_MAX) :
    deadlineOf (Int64.ofInt t) = if t = 0 then none else some t := by
  have hback : (Int64.ofInt t).toInt = t := Int64.toInt_ofInt_of_le hfits.1
    (lt_of_le_of_lt hfits.2 (by decide))
  have hzero : Int64.ofInt t = 0 ↔ t = 0 := by
    rw [← Int64.toInt_inj, hback]
    rfl
  rw [deadlineOf, hback]
  simp only [hzero]

/-- `EXPIRE` writes the deadline, if it fits. -/
theorem meets_expire (hlen : 3 ≤ args.length) :
    Meets libc (fun d => StoreRel libc d σ) (cmdExpire now args)
      (σ.expire now.toInt (arg args 1) (number (arg args 2))) := by
  rw [cmdExpire, needArgs_of_le hlen]
  refine meets_dbGet (fun hkey => ?_) fun o e hrel hkey => ?_
  · rw [Keyspace.expire, hkey]
    exact meets_emit (fun _ hd => hd) rfl
  · refine meets_raise fun secs hsecs => meets_raise fun ms hms =>
      meets_raise fun expireAt hexpire => ?_
    -- the deadline that is stored fits, so it is read back as it is
    have hfits : LLONG_MIN ≤ expireAt ∧ expireAt ≤ LLONG_MAX := by
      unfold int64 at hexpire
      split_ifs at hexpire with hfits
      exact Except.ok.inj hexpire ▸ hfits
    obtain rfl := eq_of_int64 hms
    obtain rfl := eq_of_int64 hexpire
    rw [Keyspace.expire, hkey, number_of_stoll hsecs]
    exact meets_dbModify ⟨hrel.content, deadlineOf_ofInt hfits⟩ rfl

/-- `TTL` rounds up to seconds, and takes an expired key away. -/
theorem meets_ttl (hlen : 2 ≤ args.length) :
    Meets libc (fun d => StoreRel libc d σ) (cmdTtl now args)
      (σ.ttl now.toInt (arg args 1)) := by
  rw [cmdTtl, needArgs_of_le hlen]
  refine meets_dbGet (fun hkey => ?_) fun o e hrel hkey => ?_
  · rw [Keyspace.ttl, hkey]
    exact meets_emit (fun _ hd => hd) rfl
  obtain ⟨content, deadline⟩ := e
  obtain ⟨hcontent, rfl⟩ := hrel
  dsimp only
  by_cases hzero : o.expireAtMs = 0
  · have hnone : deadlineOf o.expireAtMs = none := if_pos hzero
    -- a key without a deadline
    rw [if_pos hzero, Keyspace.ttl, hkey, hnone]
    exact meets_emit (fun _ hd => hd.rel) rfl
  have hsome : deadlineOf o.expireAtMs = some o.expireAtMs.toInt := if_neg hzero
  rw [if_neg hzero, Keyspace.ttl, hkey, hsome]
  refine meets_raise fun remaining hremaining => ?_
  obtain rfl := eq_of_int64 hremaining
  dsimp only
  by_cases hle : o.expireAtMs.toInt ≤ now.toInt
  · -- the key has expired, and goes
    rw [if_pos (sub_nonpos.mpr hle), if_pos hle]
    exact meets_of_run fun s hs =>
      ⟨_, (RespValue.integer (-2)).encode, rfl, hs.rel.dictDel _, rfl, rfl, rfl⟩
  · rw [if_neg (not_le.mpr (sub_pos.mpr (not_le.mp hle))), if_neg hle]
    -- integer division of the milliseconds plus 999 rounds up
    refine meets_raise fun rounded hrounded => ?_
    obtain rfl := eq_of_int64 hrounded
    rw [ceil_seconds]
    exact meets_emit (fun _ hd => hd.rel) rfl

/-- `PERSIST` takes the deadline away. -/
theorem meets_persist (hlen : 2 ≤ args.length) :
    Meets libc (fun d => StoreRel libc d σ) (cmdPersist args) (σ.persist (arg args 1)) := by
  rw [cmdPersist, needArgs_of_le hlen]
  refine meets_dbGet (fun hkey => ?_) fun o e hrel hkey => ?_
  · rw [Keyspace.persist, hkey]
    exact meets_emit (fun _ hd => hd) rfl
  obtain ⟨content, deadline⟩ := e
  obtain ⟨hcontent, rfl⟩ := hrel
  rw [Keyspace.persist, hkey]
  dsimp only
  by_cases hzero : o.expireAtMs = 0
  · have hnone : deadlineOf o.expireAtMs = none := if_pos hzero
    rw [if_pos hzero, if_pos hnone]
    exact meets_emit (fun _ hd => hd.rel) rfl
  · have hsome : ¬deadlineOf o.expireAtMs = none := by
      rw [deadlineOf, if_neg hzero]
      exact Option.some_ne_none _
    rw [if_neg hzero, if_neg hsome]
    exact meets_dbModify ⟨hcontent, rfl⟩ rfl

/-! ### All commands -/

/-- Too few arguments. -/
theorem needArgs_short {n : ℕ} {name : String} {body : Cmd Unit} (h : args.length < n) :
    needArgs n name args body = emit (ascii "-ERR " ++
      (ascii "wrong number of arguments for '" ++ ascii name ++ ascii "'") ++ crlf) := by
  rw [needArgs, if_pos h, replyError]
  simp only [ascii, String.toList_append, List.map_append]

/-- Too few arguments, or one without its partner. -/
theorem needPairs_short {name : String} {body : Cmd Unit}
    (h : args.length < 4 ∨ args.length % 2 ≠ 0) :
    needPairs name args body = emit (ascii "-ERR " ++
      (ascii "wrong number of arguments for '" ++ ascii name ++ ascii "'") ++ crlf) := by
  rw [needPairs, if_pos h, replyError]
  simp only [ascii, String.toList_append, List.map_append]

/-- **A wrong number of arguments** is refused. -/
theorem handler_short {c : Command}
    (h : args.length < c.arity ∨ c.inPairs = true ∧ args.length % 2 ≠ 0) :
    c.handler libc now args = emit (ascii "-ERR " ++
      (ascii "wrong number of arguments for '" ++ c.name ++ ascii "'") ++ crlf) := by
  cases c with
  | HSET => exact needPairs_short (h.imp_right And.right)
  | ZADD => exact needPairs_short (h.imp_right And.right)
  | PING | DBSIZE | QUIT | FLUSHDB | SELECT | SAVE | BGSAVE =>
    exact absurd (h.resolve_right fun h => absurd h.1 (by decide)) (Nat.not_lt_zero _)
  | _ => exact needArgs_short (h.resolve_right fun h => absurd h.1 (by decide))

/-- `PING` replies `PONG`, or its argument. -/
theorem meets_ping :
    Meets libc (fun d => StoreRel libc d σ) (cmdPing args)
      (Keyspace.execute libc now.toInt .PING args σ) := by
  show Meets libc _ (cmdPing args) (σ, if args.length = 1 then _ else _)
  rw [cmdPing]
  split_ifs
  · exact meets_emit (fun _ hd => hd) rfl
  · exact meets_emit (fun _ hd => hd) rfl

/-- `ECHO` replies its argument. -/
theorem meets_echo (hlen : 2 ≤ args.length) :
    Meets libc (fun d => StoreRel libc d σ) (cmdEcho args)
      (Keyspace.execute libc now.toInt .ECHO args σ) := by
  rw [cmdEcho, needArgs_of_le hlen]
  exact meets_emit (fun _ hd => hd) rfl

/-- `SET` writes a string without a deadline. -/
theorem meets_set (hlen : 3 ≤ args.length) :
    Meets libc (fun d => StoreRel libc d σ) (cmdSet args)
      (Keyspace.execute libc now.toInt .SET args σ) := by
  rw [cmdSet, needArgs_of_le hlen]
  exact meets_dbSet _ (fun _ hd => hd) (EntryRel.fresh (x := .str _) rfl) rfl

/-- `DEL` clears the keys, and counts those that were there. -/
theorem meets_del (hlen : 2 ≤ args.length) :
    Meets libc (fun d => StoreRel libc d σ) (cmdDel args)
      (Keyspace.execute libc now.toInt .DEL args σ) := by
  rw [cmdDel, needArgs_of_le hlen]
  refine meets_of_run fun s hs => ?_
  obtain ⟨d, n, hrun, -, hsize⟩ := exec_delLoop args.tail 0 hs.wf
  have hrel : StoreRel libc d (dropKeys args.tail σ) := by
    have hloop := delLoop_rel args.tail 0 hs
    rwa [hrun] at hloop
  have hcount : (n : ℤ) = size σ - size (dropKeys args.tail σ) := by
    rw [← hs.size_eq, ← hrel.size_eq]
    omega
  refine ⟨{ s with dict := d, writeBuf := s.writeBuf ++ (RespValue.integer n).encode }, _, ?_,
    hrel, ?_, rfl, rfl⟩
  · rw [exec_bind_ok hrun]
    rfl
  · rw [hcount]
    rfl

/-- `EXISTS` counts the live keys, each as often as it is named. -/
theorem meets_exists (hlen : 2 ≤ args.length) :
    Meets libc (fun d => StoreRel libc d σ) (cmdExists now args)
      (Keyspace.execute libc now.toInt .EXISTS args σ) := by
  rw [cmdExists, needArgs_of_le hlen]
  refine meets_of_run fun s hs => ?_
  obtain ⟨d, hrun, hrel⟩ := existsLoop_rel now args.tail 0 hs
  rw [Nat.zero_add] at hrun
  refine ⟨{ s with
    dict := d
    writeBuf := s.writeBuf ++ (RespValue.integer (args.tail.countP fun k =>
      (σ.live now.toInt k).isSome)).encode }, _, ?_, hrel, rfl, rfl, rfl⟩
  rw [exec_bind_ok hrun]
  rfl

/-- `DBSIZE` counts the keys. -/
theorem meets_dbsize :
    Meets libc (fun d => StoreRel libc d σ) (cmdDbsize args)
      (Keyspace.execute libc now.toInt .DBSIZE args σ) := by
  refine meets_of_run fun s hs => ⟨_, (RespValue.integer (dictSize s.dict)).encode, rfl, hs, ?_,
    rfl, rfl⟩
  rw [hs.size_eq]
  rfl

/-- `TYPE` replies what the live value is. -/
theorem meets_type (hlen : 2 ≤ args.length) :
    Meets libc (fun d => StoreRel libc d σ) (cmdType now args)
      (Keyspace.execute libc now.toInt .TYPE args σ) := by
  rw [cmdType, needArgs_of_le hlen]
  refine meets_withKey (meets_emit (fun _ hd => hd) rfl) fun o e hrel hkey => ?_
  have hsame : σ.set (arg args 1) (some ⟨e.content, e.deadline⟩) = σ := Keyspace.set_same hkey
  show Meets libc _ _ (σ.set (arg args 1) (some ⟨e.content, e.deadline⟩), _)
  rw [hsame]
  -- the value and the content are of the same type
  obtain ⟨v, t⟩ := o
  obtain ⟨x, deadline⟩ := e
  have hcontent := hrel.content
  cases v <;> cases x <;> first
    | exact hcontent.elim
    | exact meets_emit (fun _ hd => hd.rel) rfl

/-- `SETNX` writes a string when no live value is there. -/
theorem meets_setnx (hlen : 3 ≤ args.length) :
    Meets libc (fun d => StoreRel libc d σ) (cmdSetnx now args)
      (Keyspace.execute libc now.toInt .SETNX args σ) := by
  rw [cmdSetnx, needArgs_of_le hlen]
  refine meets_withKey (meets_make (x := .str _) rfl rfl) fun o e hrel hkey => ?_
  have hsame : σ.set (arg args 1) (some ⟨e.content, e.deadline⟩) = σ := Keyspace.set_same hkey
  show Meets libc _ _ (σ.set (arg args 1) (some ⟨e.content, e.deadline⟩), _)
  rw [hsame]
  exact meets_emit (fun _ hd => hd.rel) rfl

/-- `KEYS` replies the stored keys that match. -/
theorem meets_keys (hlen : 2 ≤ args.length) :
    Meets libc (fun d => StoreRel libc d σ) (cmdKeys args)
      (Keyspace.execute libc now.toInt .KEYS args σ) := by
  rw [cmdKeys, needArgs_of_le hlen]
  refine meets_of_run fun s hs => ?_
  obtain ⟨hnodup, hmem⟩ := keys_filter hs (cstr (arg args 1))
  rw [← dictEach_keysCb] at hnodup hmem
  exact ⟨_, _, exec_bulks _ s, hs, ⟨_, hnodup, hmem, rfl⟩, rfl, rfl⟩

/-- **Every handler** meets the specification of its command. -/
theorem meets_handler (hlibc : libc.Exact) {c : Command} (hlen : c.arity ≤ args.length)
    (heven : c.inPairs = true → args.length % 2 = 0)
    (hplain : c = .ZADD →
      ∀ p ∈ convertedPairs libc (args.drop 2), NulFree p.1 ∧ p.2.isNaN = false)
    (hsave : c.isSave = false) :
    Meets libc (fun d => StoreRel libc d σ) (c.handler libc now args)
      (Keyspace.execute libc now.toInt c args σ) := by
  cases c with
  | GET | APPEND | STRLEN | INCR | INCRBY | DECR | DECRBY => exact meets_strings rfl hlen
  | LPUSH | RPUSH | LPOP | RPOP | LLEN | LRANGE | LINDEX => exact meets_lists rfl hlen
  | HSET | HGET | HDEL | HEXISTS | HLEN | HGETALL | HKEYS | HVALS =>
    exact meets_hashes rfl hlen heven
  | ZADD | ZSCORE | ZRANGE | ZRANK | ZCARD | ZREM => exact meets_zsets hlibc rfl hlen heven hplain
  | EXPIRE => exact meets_expire hlen
  | TTL => exact meets_ttl hlen
  | PERSIST => exact meets_persist hlen
  | PING => exact meets_ping
  | ECHO => exact meets_echo hlen
  | SET => exact meets_set hlen
  | DEL => exact meets_del hlen
  | EXISTS => exact meets_exists hlen
  | DBSIZE => exact meets_dbsize
  | QUIT => exact meets_of_run fun s hs => ⟨_, _, rfl, hs, rfl, rfl, rfl⟩
  | SELECT => exact meets_emit (fun _ hd => hd) rfl
  | FLUSHDB => exact meets_of_run fun s hs => ⟨_, _, rfl, StoreRel.empty, rfl, rfl, rfl⟩
  | TYPE => exact meets_type hlen
  | SETNX => exact meets_setnx hlen
  | KEYS => exact meets_keys hlen
  | SAVE => exact absurd hsave (by decide)
  | BGSAVE => exact absurd hsave (by decide)

/-- **A call of `dispatch_command`** meets the specification. -/
theorem meets_dispatch (hlibc : libc.Exact) (hplain : PlainArgs libc args)
    (hsave : ∀ c, findCommand (arg args 0) = some c → c.isSave = false) :
    Meets libc (fun d => StoreRel libc d σ) (dispatchCommand libc now args)
      (σ.dispatch libc now.toInt args) := by
  cases args with
  | nil =>
    exact meets_of_run fun s hs => ⟨s, [], rfl, hs, rfl, (List.append_nil _).symm, rfl⟩
  | cons name rest =>
    rw [dispatchCommand, Keyspace.dispatch]
    cases hc : findCommand name with
    | none =>
      refine meets_of_run fun s hs => ⟨_, unknownReply name, rfl, hs, rfl, ?_, rfl⟩
      simp only [unknownReply, List.append_assoc]
    | some c =>
      dsimp only
      split_ifs with hshort
      · rw [handler_short hshort]
        exact meets_emit (fun _ hd => hd) rfl
      · push Not at hshort
        refine meets_handler hlibc hshort.1 hshort.2 (fun hzadd => hplain ?_) (hsave c hc)
        rw [← hzadd]
        exact hc

/-- `SAVE`. -/
theorem exec_save {libc : Libc} (hcmd : findCommand (arg args 0) = some .SAVE) (s : Session) :
    exec (dispatchCommand libc now args) s =
      (.ok (), { s with
        fs := (rdbSave s.fs s.dict s.rdbPath).1
        writeBuf := s.writeBuf ++ saveReply (rdbSave s.fs s.dict s.rdbPath).2 }) := by
  cases args with
  | nil => cases hcmd
  | cons name rest =>
    have hfind : findCommand name = some .SAVE := hcmd
    rw [dispatchCommand_of_find hfind]
    show exec (if (rdbSave s.fs s.dict s.rdbPath).2 then replySimple "OK"
      else replyError "snapshot failed") { s with fs := (rdbSave s.fs s.dict s.rdbPath).1 } = _
    cases (rdbSave s.fs s.dict s.rdbPath).2 <;> rfl

/-- `BGSAVE`. -/
theorem exec_bgsave {libc : Libc} (hcmd : findCommand (arg args 0) = some .BGSAVE) (s : Session) :
    exec (dispatchCommand libc now args) s =
      (.ok (), { s with
        children := if s.canFork then s.children ++ [s.dict] else s.children
        writeBuf := s.writeBuf ++ bgsaveReply s.canFork }) := by
  cases args with
  | nil => cases hcmd
  | cons name rest =>
    have hfind : findCommand name = some .BGSAVE := hcmd
    rw [dispatchCommand_of_find hfind]
    show exec (if s.canFork = true then do
        modify fun s => { s with children := s.children ++ [s.dict] }
        replySimple "Background saving started"
      else replyError "fork failed") s = _
    obtain ⟨⟨d, coins, fs, canFork, children, path⟩, buf, closing⟩ := s
    cases canFork <;> rfl

/-- Both leave the database as it is, and reply if they have succeeded. -/
theorem exec_saves {libc : Libc} {c : Command} (hcmd : findCommand (arg args 0) = some c)
    (hsave : c.isSave = true) {s s' : Session}
    (hrun : exec (dispatchCommand libc now args) s = (.ok (), s')) :
    s'.dict = s.dict ∧ ∃ ok, s'.writeBuf = s.writeBuf ++
      if c = .SAVE then saveReply ok else bgsaveReply ok := by
  cases c with
  | SAVE =>
    obtain ⟨-, rfl⟩ := Prod.mk.inj ((exec_save hcmd s).symm.trans hrun)
    exact ⟨rfl, _, rfl⟩
  | BGSAVE =>
    obtain ⟨-, rfl⟩ := Prod.mk.inj ((exec_bgsave hcmd s).symm.trans hrun)
    exact ⟨rfl, _, rfl⟩
  | _ => cases hsave

/-- The specification of the two: the keyspace stays as it is. -/
theorem dispatch_saves (libc : Libc) (σ : Keyspace) {c : Command}
    (hcmd : findCommand (arg args 0) = some c) (hsave : c.isSave = true) (t : ℤ) :
    σ.dispatch libc t args =
      (σ, if c = .SAVE then Set.range saveReply else Set.range bgsaveReply) := by
  cases args with
  | nil => cases hcmd
  | cons name rest =>
    have hfind : findCommand name = some c := hcmd
    rw [Keyspace.dispatch, hfind]
    cases c with
    | SAVE => rfl
    | BGSAVE => rfl
    | _ => cases hsave

/-! ### Steps and runs -/

/-- **The store refines its specification.** -/
theorem store_refines (hlibc : libc.Exact) :
    Refines (fun (g : Globals) σ => StoreRel libc g.dict σ) (StoreEvent.Plain libc)
      (Globals.Step libc) (Keyspace.Step libc) := by
  intro g σ event reply g' hplain hrel hstep
  cases hstep with
  | @command g now args s hrun =>
    by_cases hsave : ∀ c, findCommand (arg args 0) = some c → c.isSave = false
    · obtain ⟨hend, ⟨reply, hmem, hbuf⟩, -⟩ := meets_dispatch hlibc hplain hsave
        { g with writeBuf := [], closing := false } s hrel hrun
      have hreply : s.writeBuf = reply := hbuf
      exact ⟨_, .command (hreply ▸ hmem), hend⟩
    · -- a snapshot leaves the keyspace as it is
      push Not at hsave
      obtain ⟨c, hc, hsave⟩ := hsave
      rw [Bool.ne_false_iff] at hsave
      obtain ⟨hdict, ok, hbuf⟩ := exec_saves hc hsave hrun
      have hspec := dispatch_saves libc σ hc hsave now.toInt
      refine ⟨(σ.dispatch libc now.toInt args).1, .command ?_, ?_⟩
      · rw [hspec, hbuf]
        show [] ++ _ ∈ ite _ _ _
        rw [List.nil_append]
        split_ifs
        · exact ⟨ok, rfl⟩
        · exact ⟨ok, rfl⟩
      · rw [hspec]
        show StoreRel libc s.dict σ
        rwa [hdict]
  | sweep => exact ⟨_, .sweep, hrel.check _ _⟩

/-- **Every run of the store** is a run of its specification. Whatever commands come in whatever
order, with the sweep in between: their replies are those that a function from keys to entries
gives, and what is in the tables, lists and skip lists in the end is what this function says. -/
theorem store_runs (hlibc : libc.Exact) {g g' : Globals} {trace : List (StoreEvent × Bytes)}
    (hrun : Runs (Globals.Step libc) g trace g') (hplain : ∀ io ∈ trace, StoreEvent.Plain libc io.1)
    (hσ : StoreRel libc g.dict σ) :
    ∃ σ', Runs (Keyspace.Step libc) σ trace σ' ∧ StoreRel libc g'.dict σ' :=
  (store_refines hlibc).runs hrun hplain hσ

/-- A list is made and read, and its deadline passes. -/
theorem store_runs_list :
    let after : Int64 → Globals → List Bytes → Session := fun now g args =>
      (exec (dispatchCommand Libc.plain now args) { g with writeBuf := [], closing := false }).2
    let push := [ascii "RPUSH", ascii "l", ascii "a", ascii "b"]
    let expire := [ascii "EXPIRE", ascii "l", ascii "1"]
    let len := [ascii "LLEN", ascii "l"]
    let s₁ := after 0 Session.fresh.toGlobals push
    let s₂ := after 0 s₁.toGlobals expire
    let g₃ : Globals := { s₂.toGlobals with dict := (checkExpiry 1000 s₂.dict (ascii "l")).1 }
    let s₄ := after 1000 g₃ len
    let trace : List (StoreEvent × Bytes) :=
      [(.command 0 push, s₁.writeBuf), (.command 0 expire, s₂.writeBuf),
        (.sweep 1000 (ascii "l"), []), (.command 1000 len, s₄.writeBuf)]
    trace.map Prod.snd = [ascii ":2" ++ crlf, ascii ":1" ++ crlf, [], ascii ":0" ++ crlf] ∧
      ∃ σ', Runs (Keyspace.Step Libc.plain) (fun _ => none) trace σ' := by
  intro after push expire len s₁ s₂ g₃ s₄ trace
  have hplain : ∀ io ∈ trace, StoreEvent.Plain Libc.plain io.1 := by
    simp only [trace, List.forall_mem_cons]
    refine ⟨?_, ?_, trivial, ?_, fun _ h => absurd h List.not_mem_nil⟩ <;>
      exact fun hzadd => absurd hzadd (by decide)
  have hok : ∀ {now args} {g : Globals}, (exec (dispatchCommand Libc.plain now args)
      { g with writeBuf := [], closing := false }).1 = .ok () →
      Globals.Step Libc.plain g (.command now args) (after now g args).writeBuf
        (after now g args).toGlobals := fun h => .command (Prod.ext h rfl)
  have hrun : Runs (Globals.Step Libc.plain) Session.fresh.toGlobals trace s₄.toGlobals := by
    refine .cons (hok (by decide)) (.cons (hok (by decide)) (.cons (t := g₃) .sweep ?_))
    exact .single (hok (by decide))
  obtain ⟨σ', hspec, -⟩ := store_runs Libc.plain_exact hrun hplain StoreRel.empty
  exact ⟨by decide, σ', hspec⟩

end Minired
