import Minired.ZSetAdditions

/-!
# What a snapshot brings back

`rdbLoad_snapshot` runs the reader over a whole file of the writer: it accepts the file and
has put the entries into the dictionary one after the other. `Reloaded` is what the
dictionary is then: the keys that are not dropped, each with its deadline and with what
`reloadValue` makes of its value.

Strings and lists come back unchanged, `rdb_roundtrip`. Hashes and sorted sets pass through
buffers; what becomes of them is the subject of `Minired.RdbTables`.
-/

namespace Minired

open LittleEndian KeyedList

variable (libc : Libc)

/-- Every key and value of the database is written with its length and its count. -/
def Dict.Sized (d : Dict Obj) : Prop :=
  d.count < 2 ^ 64 ∧ ∀ e ∈ d.entries, SmallBlob e.key ∧ e.val.value.Sized

/-- The reader accepts the writer's file. -/
theorem rdbLoad_snapshot (now : Int64) {d : Dict Obj} (hd : d.WF) (hsized : d.Sized)
    (d₀ : Dict Obj) (coins : Coins) :
    rdbLoad libc now (some (snapshot d)) d₀ coins =
      (⟨readerAt [] (crc64Update 0 (snapshotBody d)),
        (d.entries.foldl (reloadEntry libc now) (d₀, coins)).1,
        (d.entries.foldl (reloadEntry libc now) (d₀, coins)).2⟩, true) := by
  obtain ⟨hcount, hes⟩ := hsized
  have hlen : (dictSize d).toUInt64.toNat = d.entries.length := by
    rw [← hd.count_eq]
    exact Nat.mod_eq_of_lt hcount
  have hlt : d.entries.length < 256 ^ 8 := by
    rw [← hd.count_eq]
    omega
  have hmagic : RDB_MAGIC.length = 4 := by decide
  have hversion : RDB_VERSION.toNat < 256 ^ 4 := by decide
  obtain ⟨sum, hsum⟩ : ∃ sum, sum = crc64Update 0 (snapshotBody d) := ⟨_, rfl⟩
  -- the file, written so that each reading step finds its field in front
  have hbytes : (⟨snapshot d, 0, true, false⟩ : Reader) =
      readerAt (RDB_MAGIC ++ (encode 4 RDB_VERSION.toNat ++ (encode 8 d.entries.length ++
        ((d.entries.flatMap fun e => encodeEntry e.key e.val) ++ encode 8 sum.toNat)))) 0 := by
    rw [snapshot, ← hsum, snapshotBody, hlen]
    simp only [List.append_assoc]
    rfl
  -- the reader sums up the same bytes, field by field
  have hcrc : sum = crc64Update (crc64Update (crc64Update (crc64Update 0 RDB_MAGIC)
      (encode 4 RDB_VERSION.toNat)) (encode 8 d.entries.length))
      (d.entries.flatMap fun e => encodeEntry e.key e.val) := by
    rw [hsum, snapshotBody, hlen]
    simp only [crc64Update_append]
  have hstored : decode (encode 8 sum.toNat) = sum.toNat :=
    decode_encode_of_lt (UInt64.toNat_lt _)
  rw [← hsum, rdbLoad]
  simp only [hbytes, read_append _ _ _ hmagic, readUInt_encode hversion,
    readUInt_encode hlt, loadLoop_encode libc now _ hes, ne_eq, not_true, if_false]
  -- what is left of the file is the checksum
  have hrest : (encode 8 sum.toNat).length = 8 := length_encode ..
  have htake : (encode 8 sum.toNat).take 8 = encode 8 sum.toNat := by
    rw [List.take_of_length_le hrest.le]
  simp only [readerAt, ← hcrc, hrest, lt_irrefl, if_false, htake, hstored, decide_true]
  rw [List.drop_of_length_le hrest.le]

/-- The dictionary that loading a snapshot of `d` builds: a key of `d` that is not dropped
has its deadline and the reloaded value, and there is nothing else. -/
structure Reloaded (now : Int64) (d d' : Dict Obj) : Prop where
  wf : d'.WF
  absent : ∀ key, dictGet d key = none → dictGet d' key = none
  dropped : ∀ key o, dictGet d key = some o → o.dropped now → dictGet d' key = none
  kept : ∀ key o, dictGet d key = some o → ¬o.dropped now →
    ∃ coins, dictGet d' key = some ⟨(reloadValue libc coins o.value).1, o.expireAtMs⟩

/-- Loading an entry touches its own key only. -/
theorem dictGet_reloadEntry (now : Int64) {d : Dict Obj} (hd : d.WF) (coins : Coins)
    (e : DictEntry Obj) :
    (reloadEntry libc now (d, coins) e).1.WF ∧
      (∀ key, e.key ≠ key → dictGet (reloadEntry libc now (d, coins) e).1 key = dictGet d key) ∧
      dictGet (reloadEntry libc now (d, coins) e).1 e.key =
        if e.val.dropped now then dictGet d e.key
        else some ⟨(reloadValue libc coins e.val.value).1, e.val.expireAtMs⟩ := by
  rw [reloadEntry]
  by_cases hdrop : e.val.dropped now
  · simp only [hdrop, if_true]
    exact ⟨hd, fun _ _ => trivial, trivial⟩
  · simp only [hdrop, if_false]
    refine ⟨wf_dictSet hd _ _, fun key hkey => ?_, dictGet_dictSet_self hd _ _⟩
    rw [dictGet_dictSet hd, Function.update_of_ne hkey.symm]

/-- Loading entries touches their own keys only. -/
theorem dictGet_reloadEntry_foldl (now : Int64) (es : List (DictEntry Obj)) {d : Dict Obj}
    (hd : d.WF) (coins : Coins) :
    (es.foldl (reloadEntry libc now) (d, coins)).1.WF ∧
      ∀ key, (∀ e ∈ es, e.key ≠ key) →
        dictGet (es.foldl (reloadEntry libc now) (d, coins)).1 key = dictGet d key := by
  induction es generalizing d coins with
  | nil => exact ⟨hd, fun _ _ => rfl⟩
  | cons e es ih =>
    obtain ⟨hwf, hother, -⟩ := dictGet_reloadEntry libc now hd coins e
    obtain ⟨hwf', hkeep⟩ := ih hwf (reloadEntry libc now (d, coins) e).2
    refine ⟨hwf', fun key hkey => ?_⟩
    obtain ⟨hhead, htail⟩ := List.forall_mem_cons.mp hkey
    exact (hkeep key htail).trans (hother key hhead)

/-- What an entry has put into the dictionary stays, when the entries behind it have other
keys. -/
theorem dictGet_reloadEntry_head (now : Int64) {e : DictEntry Obj} {es : List (DictEntry Obj)}
    (hne : ∀ e' ∈ es, e'.key ≠ e.key) {d : Dict Obj} (hd : d.WF) (coins : Coins) :
    dictGet ((e :: es).foldl (reloadEntry libc now) (d, coins)).1 e.key =
      if e.val.dropped now then dictGet d e.key
      else some ⟨(reloadValue libc coins e.val.value).1, e.val.expireAtMs⟩ := by
  obtain ⟨hwf, -, hself⟩ := dictGet_reloadEntry libc now hd coins e
  obtain ⟨-, hkeep⟩ := dictGet_reloadEntry_foldl libc now es hwf
    (reloadEntry libc now (d, coins) e).2
  exact (hkeep e.key hne).trans hself

/-- A value flips the coins of so many levels, whatever the coins show. -/
theorem reloadValue_snd (v : Value) :
    ∃ n, ∀ coins, (reloadValue libc coins v).2 = (fun c => (randomLevel c).2)^[n] coins := by
  cases v with
  | zset z => exact ⟨(zsetRecords z).length, buildZSet_snd libc (zsetRecords z) zsetNew⟩
  | _ => exact ⟨0, fun _ => rfl⟩

/-- So do the entries of a file. -/
theorem reloadEntry_foldl_snd (now : Int64) (es : List (DictEntry Obj)) :
    ∃ n, ∀ s : Dict Obj × Coins,
      (es.foldl (reloadEntry libc now) s).2 = (fun c => (randomLevel c).2)^[n] s.2 := by
  induction es with
  | nil => exact ⟨0, fun _ => rfl⟩
  | cons e es ih =>
    obtain ⟨n, hn⟩ := ih
    obtain ⟨k, hk⟩ := reloadValue_snd libc e.val.value
    refine ⟨n + k, fun s => ?_⟩
    rw [List.foldl_cons, hn, Function.iterate_add_apply, ← hk]
    rfl

section Entries

variable (now : Int64) {es₁ es₂ : List (DictEntry Obj)} {e : DictEntry Obj}
  (hnd : NodupKeys DictEntry.key (es₁ ++ e :: es₂))

include hnd

/-- An entry of a list of different keys is loaded with the coins that the entries in front of it
have left. -/
theorem dictGet_reloadEntry_middle (coins : Coins) :
    dictGet ((es₁ ++ e :: es₂).foldl (reloadEntry libc now) (dictNew, coins)).1 e.key =
      if e.val.dropped now then none
      else some ⟨(reloadValue libc (es₁.foldl (reloadEntry libc now) (dictNew, coins)).2
        e.val.value).1, e.val.expireAtMs⟩ := by
  obtain ⟨hne, -⟩ := (hnd.perm List.perm_middle).of_cons
  obtain ⟨hwf, hkeep⟩ := dictGet_reloadEntry_foldl libc now es₁ wf_dictNew coins
  have habsent := hkeep e.key fun e' he' => hne e' (List.mem_append_left es₂ he')
  rw [dictGet_dictNew] at habsent
  rw [List.foldl_append, dictGet_reloadEntry_head libc now
    (fun e' he' => hne e' (List.mem_append_right es₁ he')) hwf, habsent]

/-- These can be any coins. -/
theorem exists_coins_reloadEntry (hdrop : ¬e.val.dropped now) (coins' : Coins) :
    ∃ coins, dictGet ((es₁ ++ e :: es₂).foldl (reloadEntry libc now) (dictNew, coins)).1 e.key =
      some ⟨(reloadValue libc coins' e.val.value).1, e.val.expireAtMs⟩ := by
  obtain ⟨n, hn⟩ := reloadEntry_foldl_snd libc now es₁
  obtain ⟨coins, hcoins⟩ := surjective_randomLevel.iterate n coins'
  refine ⟨coins, ?_⟩
  rw [dictGet_reloadEntry_middle libc now hnd, if_neg hdrop, hn, hcoins]

end Entries

/-- **Saving and loading**, with every file operation succeeding, into an empty dictionary. -/
theorem rdb_reload {fs : FileSys} (hopen : fs.canOpen = true) (hroom : fs.room = none)
    (hrename : fs.canRename = true) (now : Int64) {d : Dict Obj} (hd : d.WF) (hsized : d.Sized)
    (path : Bytes) (coins : Coins) :
    let load := rdbLoad libc now ((rdbSave fs d path).1.files path) dictNew coins
    (rdbSave fs d path).2 = true ∧ load.2 = true ∧ load.1.reader.overrun = false ∧
      Reloaded libc now d load.1.dict := by
  intro load
  obtain ⟨hsave, hfile⟩ := rdbSave_eq hopen hroom hrename d path
  -- the file is the snapshot, and loading it is a fold over the entries
  have hload := rdbLoad_snapshot libc now hd hsized dictNew coins
  rw [← hfile] at hload
  change load = _ at hload
  obtain ⟨hwf, hkeep⟩ := dictGet_reloadEntry_foldl libc now d.entries wf_dictNew coins
  -- the entry of a key, between those of other keys
  have hentry : ∀ key o, dictGet d key = some o → ∃ coins',
      dictGet load.1.dict key = if o.dropped now then none
        else some ⟨(reloadValue libc coins' o.value).1, o.expireAtMs⟩ := by
    intro key o ho
    obtain ⟨es₁, es₂, hes⟩ := List.append_of_mem ((dictGet_eq_some_iff hd).mp ho)
    have hnd := hd.nodup
    rw [hload, hes]
    rw [hes] at hnd
    exact ⟨_, dictGet_reloadEntry_middle libc now hnd coins⟩
  refine ⟨hsave, by rw [hload], by rw [hload]; rfl, by rw [hload]; exact hwf, fun key hkey => ?_,
    fun key o ho hdrop => ?_, fun key o ho hdrop => ?_⟩
  · -- what is not in the dictionary is not in the file
    rw [dictGet_eq_none_iff hd] at hkey
    rw [hload]
    exact (hkeep key hkey).trans (by rw [dictGet_dictNew])
  · obtain ⟨coins', h⟩ := hentry key o ho
    rwa [if_pos hdrop] at h
  · obtain ⟨coins', h⟩ := hentry key o ho
    rw [if_neg hdrop] at h
    exact ⟨coins', h⟩

/-- The coins that are left for a key can be any. -/
theorem rdb_reload_coins {fs : FileSys} (hopen : fs.canOpen = true) (hroom : fs.room = none)
    (hrename : fs.canRename = true) (now : Int64) {d : Dict Obj} (hd : d.WF) (hsized : d.Sized)
    (path : Bytes) {key : Bytes} {o : Obj} (ho : dictGet d key = some o) (hdrop : ¬o.dropped now)
    (coins' : Coins) :
    ∃ coins, dictGet (rdbLoad libc now ((rdbSave fs d path).1.files path) dictNew coins).1.dict
      key = some ⟨(reloadValue libc coins' o.value).1, o.expireAtMs⟩ := by
  obtain ⟨-, hfile⟩ := rdbSave_eq hopen hroom hrename d path
  obtain ⟨es₁, es₂, hes⟩ := List.append_of_mem ((dictGet_eq_some_iff hd).mp ho)
  have hnd := hd.nodup
  rw [hes] at hnd
  obtain ⟨coins, hget⟩ := exists_coins_reloadEntry libc now hnd hdrop coins'
  refine ⟨coins, ?_⟩
  rw [hfile, rdbLoad_snapshot libc now hd hsized dictNew coins, hes]
  exact hget

/-! ### Strings and lists -/

/-- A string or a list whose lengths fit in 32 bits. -/
def Value.StringOrList : Value → Prop
  | .str s => SmallBlob s
  | .list l => l.length < 2 ^ 32 ∧ ∀ e ∈ l, SmallBlob e
  | _ => False

/-- **Strings and lists survive a snapshot.** A database of strings and lists, saved with
every file operation succeeding and loaded at time `now`, comes back with exactly the keys
whose deadline is not in the past, the same values and the same deadlines. -/
theorem rdb_roundtrip {fs : FileSys} (hopen : fs.canOpen = true) (hroom : fs.room = none)
    (hrename : fs.canRename = true) (now : Int64) {d : Dict Obj} (hd : d.WF)
    (hcount : d.count < 2 ^ 64)
    (hvals : ∀ key o, dictGet d key = some o → SmallBlob key ∧ o.value.StringOrList)
    (path : Bytes) (coins : Coins) :
    let load := rdbLoad libc now ((rdbSave fs d path).1.files path) dictNew coins
    (rdbSave fs d path).2 = true ∧ load.2 = true ∧ load.1.reader.overrun = false ∧
      ∀ key, dictGet load.1.dict key = (dictGet d key).filter fun o => !decide (o.dropped now) := by
  -- strings and lists of small items are written with the right lengths
  have hsized : d.Sized := by
    refine ⟨hcount, fun e he => ?_⟩
    obtain ⟨hkey, hval⟩ := hvals _ _ ((dictGet_eq_some_iff hd).mpr he)
    refine ⟨hkey, ?_⟩
    cases hv : e.val.value with
    | str s => rwa [hv] at hval
    | list l => rwa [hv] at hval
    | hash h => rw [hv] at hval; exact hval.elim
    | zset z => rw [hv] at hval; exact hval.elim
  obtain ⟨hsave, hload, hover, hrel⟩ := rdb_reload libc hopen hroom hrename now hd hsized path coins
  refine ⟨hsave, hload, hover, fun key => ?_⟩
  cases ho : dictGet d key with
  -- a key that was not there does not come up
  | none => exact hrel.absent key ho
  | some o =>
    obtain ⟨-, hval⟩ := hvals key o ho
    rw [Option.filter_some]
    by_cases hdrop : o.dropped now
    · -- a deadline in the past: the entry is skipped
      rw [hrel.dropped key o ho hdrop, if_neg (by simpa using hdrop)]
    · -- a string or a list is reloaded as it was
      obtain ⟨coins', hkept⟩ := hrel.kept key o ho hdrop
      rw [hkept, if_pos (by simpa using hdrop)]
      obtain ⟨value, expireAtMs⟩ := o
      cases value with
      | str s => rfl
      | list l => rfl
      | hash h => exact hval.elim
      | zset z => exact hval.elim

/-- A list with a deadline to come, and an empty element. -/
theorem rdb_roundtrip_list :
    let load := rdbLoad Libc.plain 3 ((rdbSave .fresh
      (dictSet dictNew (ascii "l") ⟨.list [ascii "a", []], 5⟩) (ascii "dump")).1.files
      (ascii "dump")) dictNew fun _ => false
    load.2 = true ∧ dictGet load.1.dict (ascii "l") = some ⟨.list [ascii "a", []], 5⟩ := by
  have hcount : (dictSet dictNew (ascii "l") ⟨.list [ascii "a", []], 5⟩ : Dict Obj).count <
      2 ^ 64 := by decide
  have hd : (dictSet dictNew (ascii "l") ⟨.list [ascii "a", []], 5⟩ : Dict Obj).WF :=
    wf_dictSet wf_dictNew _ _
  have hget := dictGet_dictSet wf_dictNew (ascii "l") (⟨.list [ascii "a", []], 5⟩ : Obj)
  -- only the lookup of the key matters from here on
  generalize dictSet dictNew (ascii "l") (⟨.list [ascii "a", []], 5⟩ : Obj) = d at *
  rw [dictGet_dictNew] at hget
  have hsmall : ∀ b ∈ [ascii "l", ascii "a", []], SmallBlob b := by
    have hlen : ∀ b ∈ [ascii "l", ascii "a", []], b.length ≤ 1 := by decide
    exact fun b hb => lt_of_le_of_lt (hlen b hb) (by decide)
  have hvals : ∀ key o, dictGet d key = some o → SmallBlob key ∧ o.value.StringOrList := by
    intro key o ho
    rw [hget] at ho
    by_cases hkey : key = ascii "l"
    · subst hkey
      rw [Function.update_self] at ho
      obtain rfl := Option.some.inj ho
      -- the only key there is
      exact ⟨hsmall _ (by simp), by decide, fun e he => hsmall e (List.mem_cons_of_mem _ he)⟩
    · rw [Function.update_of_ne hkey] at ho
      exact absurd ho (Option.some_ne_none o).symm
  obtain ⟨-, hload, -, hdict⟩ := rdb_roundtrip Libc.plain
    (show FileSys.fresh.canOpen = true from rfl) rfl rfl 3 hd hcount hvals (ascii "dump")
    fun _ => false
  refine ⟨hload, (hdict (ascii "l")).trans ?_⟩
  have hkept : ¬Obj.dropped 3 ⟨.list [ascii "a", []], 5⟩ := by decide
  rw [hget, Function.update_self, Option.filter_some, if_pos (by simpa using hkept)]

end Minired
