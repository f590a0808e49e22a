import Minired.Enumerations

/-!
# Replies that count

`DEL`, `HSET` and `HDEL` reply a number that a loop counts while it changes the table it counts
in. `dict_set` makes a table larger by one when the key is new, and `dict_del` makes it smaller by
one when the key is there (`size_dictSet`, `size_dictDel`); these are the cases in which the loops
count, so counter and size go together through all repetitions (`hsetLoop_spec`, `hdelLoop_spec`,
`exec_delLoop`).

The fields of `HSET` are written one after the other, so the last value of a field stays
(`lastValue`). `count_replies_match` puts the three commands together, in terms of the replies of
`HLEN` and `HGET` in front of the command and behind it.
-/

namespace Minired

open Framing Relational KeyedList

variable {libc : Libc} {now : Int64} {key : Bytes} {s : Session}

/-! ### One call on a table -/

/-- `dict_set` makes the table larger when the key is new. -/
theorem size_dictSet {α : Type} {d : Dict α} (hd : d.WF) (key : Bytes) (val : α) :
    dictSize (dictSet d key val) = dictSize d + if (dictGet d key).isNone then 1 else 0 := by
  obtain ⟨hwf, hperm⟩ := dictSet_spec hd key val
  have hsize : dictSize (dictSet d key val) = (without DictEntry.key key d.entries).length + 1 :=
    hwf.count_eq.trans hperm.length_eq
  rw [hsize, dictSize, hd.count_eq]
  cases hget : dictGet d key with
  | none =>
    rw [without_of_forall_ne ((dictGet_eq_none_iff hd).mp hget)]
    rfl
  | some v =>
    -- the old entry of the key goes
    exact hd.nodup.length_without ((dictGet_eq_some_iff hd).mp hget)

/-- `dict_del` makes the table smaller when the key is there. -/
theorem size_dictDel {α : Type} {d : Dict α} (hd : d.WF) (key : Bytes) :
    dictSize (dictDel d key).1 + (if (dictDel d key).2 then 1 else 0) = dictSize d := by
  obtain ⟨hwf, hentries, hfound⟩ := dictDel_spec hd key
  rw [hfound, dictSize, dictSize, hwf.count_eq, hd.count_eq, hentries]
  cases hget : dictGet d key with
  | none =>
    rw [without_of_forall_ne ((dictGet_eq_none_iff hd).mp hget)]
    rfl
  | some v => exact hd.nodup.length_without ((dictGet_eq_some_iff hd).mp hget)

/-- A counter that goes up when the key is there makes up for it. -/
theorem count_dictDel {α : Type} {d : Dict α} (hd : d.WF) (key : Bytes) (count : ℕ) :
    dictSize (dictDel d key).1 + (if (dictDel d key).2 then count + 1 else count) =
      dictSize d + count := by
  have hone := size_dictDel hd key
  split_ifs at hone ⊢ <;> omega

/-! ### The loops -/

/-- **The reference.** The value of the last occurrence of the field. -/
def lastValue (pairs : List (Bytes × Bytes)) (field : Bytes) : Option Bytes :=
  (pairs.reverse.find? fun p => p.1 = field).map Prod.snd

/-- A pair in front is the last of its field when no other follows. -/
theorem lastValue_cons (p : Bytes × Bytes) (pairs : List (Bytes × Bytes)) (field : Bytes) :
    lastValue (p :: pairs) field =
      (lastValue pairs field).or (if p.1 = field then some p.2 else none) := by
  rw [lastValue, List.reverse_cons, List.find?_append, lastValue]
  cases pairs.reverse.find? fun p => p.1 = field with
  | some q => rfl
  | none =>
    rw [Option.none_or, Option.map_none, Option.none_or, List.find?_singleton]
    by_cases hp : p.1 = field
    · rw [if_pos (decide_eq_true hp), if_pos hp]
      rfl
    · rw [if_neg (by simpa using hp), if_neg hp]
      rfl

/-- **The loop of `HSET`**: the table has the last values, and it has grown by what was counted. -/
theorem hsetLoop_spec (pairs : List (Bytes × Bytes)) {h : Dict Bytes} (hh : h.WF) (count : ℕ) :
    (hsetLoop h count (pairArgs pairs)).1.WF ∧
      (∀ field, dictGet (hsetLoop h count (pairArgs pairs)).1 field =
        (lastValue pairs field).or (dictGet h field)) ∧
      dictSize (hsetLoop h count (pairArgs pairs)).1 + count =
        dictSize h + (hsetLoop h count (pairArgs pairs)).2 := by
  induction pairs generalizing h count with
  | nil => exact ⟨hh, fun _ => rfl, rfl⟩
  | cons p pairs ih =>
    -- the counter goes up by what the size goes up by
    obtain ⟨new, hnew⟩ : ∃ new, new = if (dictGet h p.1).isNone then 1 else 0 := ⟨_, rfl⟩
    have hstep : hsetLoop h count (pairArgs (p :: pairs)) =
        hsetLoop (dictSet h p.1 p.2) (count + new) (pairArgs pairs) := by
      show hsetLoop h count (p.1 :: p.2 :: pairArgs pairs) = _
      rw [hsetLoop, hnew, htableExists]
      cases dictGet h p.1 <;> rfl
    have hone := size_dictSet hh p.1 p.2
    rw [← hnew] at hone
    obtain ⟨hwf, hget, hsize⟩ := ih (wf_dictSet hh p.1 p.2) (count + new)
    rw [hstep]
    refine ⟨hwf, fun field => ?_, by omega⟩
    rw [hget field, dictGet_dictSet hh, lastValue_cons, Option.or_assoc]
    by_cases hp : p.1 = field
    · rw [if_pos hp, hp, Function.update_self]
      rfl
    · rw [if_neg hp, Function.update_of_ne (Ne.symm hp)]
      rfl

/-- **The loop of `HDEL`**: the table has shrunk by what was counted. -/
theorem hdelLoop_spec (fields : List Bytes) {h : Dict Bytes} (hh : h.WF) (count : ℕ) :
    (fields.foldl hdelCount (h, count)).1.WF ∧
      dictSize (fields.foldl hdelCount (h, count)).1 + (fields.foldl hdelCount (h, count)).2 =
        dictSize h + count := by
  induction fields generalizing h count with
  | nil => exact ⟨hh, rfl⟩
  | cons field fields ih =>
    obtain ⟨hwf, hsize⟩ := ih (wf_dictDel hh field)
      (if (htableDel h field).2 then count + 1 else count)
    exact ⟨hwf, hsize.trans (count_dictDel hh field count)⟩

/-- **The loop of `DEL`**: the database has shrunk by what was counted. -/
theorem exec_delLoop (keys : List Bytes) (count : ℕ) {s : Session} (hs : s.dict.WF) :
    ∃ (d : Dict Obj) (n : ℕ), exec (keys.foldlM delCount count) s =
        (.ok n, { s with dict := d }) ∧ d.WF ∧ dictSize d + n = dictSize s.dict + count := by
  induction keys generalizing count s with
  | nil => exact ⟨s.dict, count, rfl, hs, rfl⟩
  | cons key keys ih =>
    have hrun : exec (delCount count key) s =
        (.ok (if (dictDel s.dict key).2 then count + 1 else count),
          { s with dict := (dictDel s.dict key).1 }) := by
      rw [delCount, exec_bind, exec_dbDel]
      cases (dictDel s.dict key).2 <;> rfl
    obtain ⟨d, n, hrest, hwf, hsize⟩ := ih (if (dictDel s.dict key).2 then count + 1 else count)
      (s := { s with dict := (dictDel s.dict key).1 }) (wf_dictDel hs key)
    refine ⟨d, n, ?_, hwf, hsize.trans (count_dictDel hs key count)⟩
    rw [List.foldlM_cons, exec_bind_ok hrun, hrest]

/-! ### The commands on a hash -/

/-- The hash of a key, empty when nothing is live of it. -/
def liveHash (now : Int64) (d : Dict Obj) (key : Bytes) : Dict Bytes :=
  ((live now d key).bind fun o => o.value.hash?).getD dictNew

/-- A value or its absence, as a reply. -/
def RespValue.ofOption : Option Bytes → RespValue
  | none => .nullBulk
  | some data => .bulk data

/-- The hash of a key is in order. -/
theorem wf_liveHash (hs : AllValues Value.WF s.dict) (now : Int64) (key : Bytes) :
    (liveHash now s.dict key).WF := by
  unfold liveHash
  cases hlive : live now s.dict key with
  | none => exact wf_dictNew
  | some o =>
    have hvalue := hs.of_live hlive
    rw [Option.bind_some]
    cases hv : o.value with
    | hash h =>
      rw [hv] at hvalue
      exact hvalue
    | _ => exact wf_dictNew

section Run

variable (libc) (hs : s.dict.WF)
  (hkey : ∀ o, live now s.dict key = some o → ∃ h, o.value = .hash h)

include hs hkey

/-- `HLEN` replies the size of the hash. -/
theorem replied_hlen_liveHash :
    Replied libc now s [ascii "HLEN", key] (.integer (htableLen (liveHash now s.dict key))) := by
  unfold liveHash
  cases hlive : live now s.dict key with
  | none => exact replied_missing (c := .HLEN) (by decide) hs hlive rfl fun _ => rfl
  | some o =>
    obtain ⟨h, hvalue⟩ := hkey o hlive
    rw [Option.bind_some, hvalue]
    exact replied_hlen libc hs hlive hvalue

/-- `HGET` replies what the hash has. -/
theorem replied_hget_liveHash (field : Bytes) :
    Replied libc now s [ascii "HGET", key, field]
      (.ofOption (htableGet (liveHash now s.dict key) field)) := by
  unfold liveHash
  cases hlive : live now s.dict key with
  | none =>
    have hnone : htableGet dictNew field = none := congrFun dictGet_dictNew field
    rw [Option.bind_none, Option.getD_none, hnone]
    exact replied_missing (c := .HGET) (by decide) hs hlive rfl fun _ => rfl
  | some o =>
    obtain ⟨h, hvalue⟩ := hkey o hlive
    refine replied_live (c := .HGET) (by decide) hs hlive rfl ?_
    rw [Option.bind_some, hvalue]
    show exec (match htableGet h field with | none => _ | some val => _) s =
      (.ok (), { s with writeBuf := _ ++ (RespValue.ofOption (htableGet h field)).encode })
    cases htableGet h field with
    | none => rfl
    | some val => rfl

/-- **`HSET` on a missing key or a hash**: its loop runs on the hash, and its count is replied. -/
theorem exec_hset {pairs : List (Bytes × Bytes)} (hne : pairs ≠ []) :
    ∃ (t : Session) (expireAtMs : Int64),
      exec (dispatchCommand libc now (ascii "HSET" :: key :: pairArgs pairs)) s =
        (.ok (), { t with writeBuf := s.writeBuf ++ (RespValue.integer
          (hsetLoop (liveHash now s.dict key) 0 (pairArgs pairs)).2).encode }) ∧
      live now t.dict key = some ⟨.hash
        (hsetLoop (liveHash now s.dict key) 0 (pairArgs pairs)).1, expireAtMs⟩ := by
  have hlen : (ascii "HSET" :: key :: pairArgs pairs).length = 2 * pairs.length + 2 := by
    simp [length_pairArgs]
  have hpos : 0 < pairs.length := List.length_pos_iff.mpr hne
  rw [dispatchCommand_of_find (c := .HSET) (by decide)]
  show ∃ t expireAtMs, exec (cmdHset now _) s = _ ∧ _
  rw [cmdHset, needPairs_of_pairs ⟨by omega, by omega⟩, getOrCreateHash]
  have harg : arg (ascii "HSET" :: key :: pairArgs pairs) 1 = key := rfl
  rw [harg]
  obtain ⟨d, expireAtMs, hd, hlive, hrun⟩ := exec_getOrCreate_bind dictNew .hash
    Value.hash? (fun _ => rfl) hs hkey _
  rw [hrun]
  exact ⟨_, expireAtMs, rfl, live_setValue hd hlive _⟩

/-- **`HDEL` on a missing key or a hash**: its loop runs on the hash, and its count is replied. -/
theorem exec_hdel {fields : List Bytes} (hne : fields ≠ []) :
    ∃ t : Session, exec (dispatchCommand libc now (ascii "HDEL" :: key :: fields)) s =
        (.ok (), { t with writeBuf := s.writeBuf ++ (RespValue.integer
          (fields.foldl hdelCount (liveHash now s.dict key, 0)).2).encode }) ∧
      (∀ o, live now t.dict key = some o → ∃ h, o.value = .hash h) ∧
      htableLen (liveHash now t.dict key) =
        htableLen (fields.foldl hdelCount (liveHash now s.dict key, 0)).1 := by
  have hlen : 3 ≤ (ascii "HDEL" :: key :: fields).length := by
    have hpos := List.length_pos_iff.mpr hne
    simp only [List.length_cons]
    omega
  rw [dispatchCommand_of_find (c := .HDEL) (by decide)]
  show ∃ t, exec (cmdHdel now _) s = _ ∧ _
  rw [cmdHdel, needArgs_of_le hlen, liveHash]
  show ∃ t, exec (withKey now key _ _) s = _ ∧ _
  cases hlive : live now s.dict key with
  | none =>
    rw [exec_withKey_missing hs hlive]
    -- nothing is counted in an empty hash, and nothing is live of the key afterwards
    obtain ⟨-, hsize⟩ := hdelLoop_spec fields (wf_dictNew (α := Bytes)) 0
    have hempty : dictSize (dictNew : Dict Bytes) = 0 := rfl
    have hcount : (fields.foldl hdelCount (dictNew, 0)).2 = 0 := by omega
    have hlen : htableLen (fields.foldl hdelCount (dictNew, 0)).1 = 0 := by
      rw [htableLen]
      omega
    have hgone : live now (checkExpiry now s.dict key).1 key = none := by
      rw [live, dictGet_checkExpiry hs, Function.update_self, hlive]
      rfl
    rw [Option.bind_none, Option.getD_none, hcount, hlen]
    refine ⟨{ s with dict := (checkExpiry now s.dict key).1 }, rfl, fun o ho => ?_, ?_⟩
    · cases hgone.symm.trans ho
    · show htableLen (liveHash now (checkExpiry now s.dict key).1 key) = 0
      rw [liveHash, hgone]
      rfl
  | some o =>
    obtain ⟨h, hh⟩ := hkey o hlive
    obtain ⟨value, expireAtMs⟩ := o
    subst hh
    rw [exec_withKey_live hs hlive]
    have hafter := live_setValue hs hlive (.hash (fields.foldl hdelCount (h, 0)).1)
    have hhash : liveHash now (dictModify s.dict key (Obj.setValue (.hash
        (fields.foldl hdelCount (h, 0)).1))) key = (fields.foldl hdelCount (h, 0)).1 := by
      rw [liveHash, hafter]
      rfl
    refine ⟨_, rfl, fun o ho => ?_, congrArg htableLen hhash⟩
    exact ⟨_, congrArg Obj.value (Option.some.inj (ho.symm.trans hafter))⟩

end Run

/-! ### What the replies say -/

variable (libc) in
/-- The reply of `DEL` is the number of keys stored in front of it minus the number behind it. -/
def DelCounts (now : Int64) (s : Session) (keys : List Bytes) : Prop :=
  let s' := (exec (dispatchCommand libc now (ascii "DEL" :: keys)) s).2
  ∃ n : ℕ, Replied libc now s (ascii "DEL" :: keys) (.integer n) ∧
    {k | dictGet s.dict k ≠ none}.ncard = {k | dictGet s'.dict k ≠ none}.ncard + n

variable (libc) in
/-- The reply of `HSET` is `HLEN` behind it minus `HLEN` in front of it, each listed field has its
last value, and the others are as they were. -/
def HsetCounts (now : Int64) (s : Session) (key : Bytes) (pairs : List (Bytes × Bytes)) : Prop :=
  let s' := (exec (dispatchCommand libc now (ascii "HSET" :: key :: pairArgs pairs)) s).2
  ∃ n before : ℕ, Replied libc now s (ascii "HSET" :: key :: pairArgs pairs) (.integer n) ∧
    Replied libc now s [ascii "HLEN", key] (.integer before) ∧
    (live now s.dict key = none → before = 0) ∧
    Replied libc now s' [ascii "HLEN", key] (.integer (before + n : ℕ)) ∧
    ∀ field, ∃ was : Option Bytes,
      Replied libc now s [ascii "HGET", key, field] (.ofOption was) ∧
      Replied libc now s' [ascii "HGET", key, field] (.ofOption ((lastValue pairs field).or was))

variable (libc) in
/-- The reply of `HDEL` is `HLEN` in front of it minus `HLEN` behind it. -/
def HdelCounts (now : Int64) (s : Session) (key : Bytes) (fields : List Bytes) : Prop :=
  let s' := (exec (dispatchCommand libc now (ascii "HDEL" :: key :: fields)) s).2
  ∃ n behind : ℕ, Replied libc now s (ascii "HDEL" :: key :: fields) (.integer n) ∧
    Replied libc now s [ascii "HLEN", key] (.integer (behind + n : ℕ)) ∧
    Replied libc now s' [ascii "HLEN", key] (.integer behind)

/-- `DEL` counts the keys that it deletes. -/
theorem delCounts (hs : s.dict.WF) {keys : List Bytes} (hne : keys ≠ []) :
    DelCounts libc now s keys := by
  obtain ⟨d, n, hloop, hwf, hsize⟩ := exec_delLoop keys 0 hs
  have hlen : 2 ≤ (ascii "DEL" :: keys).length := by
    have hpos := List.length_pos_iff.mpr hne
    simp only [List.length_cons]
    omega
  have hrun : exec (dispatchCommand libc now (ascii "DEL" :: keys)) s = (.ok (), { s with
      dict := d, writeBuf := s.writeBuf ++ (RespValue.integer n).encode }) := by
    rw [dispatchCommand_of_find (c := .DEL) (by decide)]
    show exec (cmdDel _) s = _
    rw [cmdDel, needArgs_of_le hlen, List.tail_cons, exec_bind_ok hloop]
    rfl
  have hbefore := DictRel.size_eq ⟨hs, rfl⟩
  have hbehind := DictRel.size_eq ⟨hwf, rfl⟩
  refine ⟨n, ?_, ?_⟩
  · rw [Replied, hrun]
    exact ⟨rfl, rfl⟩
  · rw [hrun]
    exact hbefore.symm.trans (hsize.symm.trans (congrArg (· + n) hbehind))

section Hash

variable (hs : AllValues Value.WF s.dict)
  (hkey : ∀ o, live now s.dict key = some o → ∃ h, o.value = .hash h)

include hs hkey

/-- `HSET` counts the fields that it adds. -/
theorem hsetCounts {pairs : List (Bytes × Bytes)} (hne : pairs ≠ []) :
    HsetCounts libc now s key pairs := by
  obtain ⟨t, expireAtMs, hrun, hbehind⟩ := exec_hset libc hs.wf hkey hne
  obtain ⟨hwf, hget, hsize⟩ := hsetLoop_spec pairs (wf_liveHash hs now key) 0
  have hcommand := hs.command (valueClass_wf libc) now (ascii "HSET" :: key :: pairArgs pairs)
  -- what is stored behind the command is what the loop left
  have hkey' : ∀ o, live now (exec (dispatchCommand libc now
      (ascii "HSET" :: key :: pairArgs pairs)) s).2.dict key = some o →
      ∃ h, o.value = .hash h := by
    intro o ho
    rw [hrun] at ho
    exact ⟨_, congrArg Obj.value (Option.some.inj (ho.symm.trans hbehind))⟩
  have hhash : liveHash now (exec (dispatchCommand libc now
      (ascii "HSET" :: key :: pairArgs pairs)) s).2.dict key =
      (hsetLoop (liveHash now s.dict key) 0 (pairArgs pairs)).1 := by
    rw [hrun, liveHash, hbehind]
    rfl
  have hlen := replied_hlen_liveHash libc hcommand.wf hkey'
  have hfield := replied_hget_liveHash libc hcommand.wf hkey'
  rw [hhash] at hlen hfield
  refine ⟨(hsetLoop (liveHash now s.dict key) 0 (pairArgs pairs)).2,
    htableLen (liveHash now s.dict key), ?_, replied_hlen_liveHash libc hs.wf hkey, ?_, ?_, ?_⟩
  · rw [Replied, hrun]
    exact ⟨rfl, rfl⟩
  · intro hnone
    rw [liveHash, hnone]
    rfl
  · rw [htableLen, ← hsize, Nat.add_zero]
    exact hlen
  · intro field
    refine ⟨htableGet (liveHash now s.dict key) field, replied_hget_liveHash libc hs.wf hkey field,
      ?_⟩
    rw [htableGet, ← hget field]
    exact hfield field

/-- `HDEL` counts the fields that it removes. -/
theorem hdelCounts {fields : List Bytes} (hne : fields ≠ []) :
    HdelCounts libc now s key fields := by
  obtain ⟨t, hrun, hkey', hbehind⟩ := exec_hdel libc hs.wf hkey hne
  obtain ⟨hwf, hsize⟩ := hdelLoop_spec fields (wf_liveHash hs now key) 0
  have hcommand := hs.command (valueClass_wf libc) now (ascii "HDEL" :: key :: fields)
  have hbefore := replied_hlen_liveHash libc hs.wf hkey
  rw [htableLen, ← Nat.add_zero (dictSize _), ← hsize] at hbefore
  -- the size behind the command is that of the loop
  rw [hrun] at hcommand
  have hlen := replied_hlen_liveHash libc hcommand.wf hkey'
  rw [show htableLen (liveHash now _ key) = _ from hbehind] at hlen
  refine ⟨(fields.foldl hdelCount (liveHash now s.dict key, 0)).2,
    htableLen (fields.foldl hdelCount (liveHash now s.dict key, 0)).1, ?_, hbefore, ?_⟩
  · rw [Replied, hrun]
    exact ⟨rfl, rfl⟩
  · rw [hrun]
    exact hlen

end Hash

/-- **Count replies match the change made.** In every reachable database, for every list of
arguments with any repetitions: `DEL` replies how many keys fewer are stored, and on a missing key
or a hash `HSET` and `HDEL` reply how many fields more and fewer there are, and `HSET` leaves
each listed field with the value of its last occurrence and every other one as it was. -/
theorem count_replies_match (hs : Reachable libc s.dict) (now : Int64) :
    (∀ keys, keys ≠ [] → DelCounts libc now s keys) ∧
    ∀ key, (∀ o, live now s.dict key = some o → ∃ h, o.value = .hash h) →
      (∀ pairs, pairs ≠ [] → HsetCounts libc now s key pairs) ∧
      ∀ fields, fields ≠ [] → HdelCounts libc now s key fields :=
  ⟨fun _ hne => delCounts hs.wf hne, fun _ hkey =>
    ⟨fun _ hne => hsetCounts hs.values hkey hne, fun _ hne => hdelCounts hs.values hkey hne⟩⟩

/-- Two texts and a hash of two fields. -/
def textsAndHash : Session :=
  afterCommands Libc.plain 0 [[ascii "SET", ascii "a", ascii "x"],
    [ascii "SET", ascii "b", ascii "y"],
    [ascii "HSET", ascii "h", ascii "f", ascii "1", ascii "g", ascii "2"]] Session.fresh

/-- The hash of the key. -/
theorem get_textsAndHash : dictGet textsAndHash.dict (ascii "h") = some ⟨.hash (htableSet
    (htableSet dictNew (ascii "f") (ascii "1")) (ascii "g") (ascii "2")), 0⟩ := rfl

/-- Two keys of three are there, and one is named twice; a field is replaced and another added;
two fields of three are there, and one is named twice. -/
theorem count_replies_stored :
    DelCounts Libc.plain 0 textsAndHash [ascii "a", ascii "h", ascii "a", ascii "c"] ∧
      HsetCounts Libc.plain 0 textsAndHash (ascii "h")
        [(ascii "f", ascii "3"), (ascii "e", ascii "4"), (ascii "f", ascii "5")] ∧
      HdelCounts Libc.plain 0 textsAndHash (ascii "h")
        [ascii "g", ascii "f", ascii "g", ascii "e"] := by
  have hs : Reachable Libc.plain textsAndHash.dict := reachable_fresh.afterCommands 0 _
  have hall := count_replies_match hs 0
  obtain ⟨hset, hdel⟩ := hall.2 (ascii "h") fun o ho => by
    obtain rfl := Option.some.inj (get_textsAndHash.symm.trans (live_eq_some_iff.mp ho).1)
    exact ⟨_, rfl⟩
  exact ⟨hall.1 _ (List.cons_ne_nil _ _), hset _ (List.cons_ne_nil _ _),
    hdel _ (List.cons_ne_nil _ _)⟩

end Minired
