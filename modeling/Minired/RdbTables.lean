import Minired.RdbRoundTrip
import Minired.DictMap
import Minired.ZSetAgree

/-!
# Hashes and sorted sets in a snapshot

Both are written through buffers of 4096 places. The number in front of a hash is that of
the fields written, so a larger hash silently loses the others
(`rdb_hashes_survive_iff`). The number in front of a sorted set is its size, so a larger
one makes the reader run into the next entry. Its members are written as C strings, from
the skip list, and added one after the other. They come back right, in both indexes, if and
only if the skip list, read so, denotes the map of the table, and no addition takes out the
node of another one (`rdb_zsets_survive_iff`).
-/

namespace Minired

open Chain LittleEndian KeyedList Transducer

/-! ### Hashes -/

/-- The fields of a hash that was built from different fields. -/
theorem buildHash_spec {h : Dict Bytes} (hh : h.WF) (kvs : List (Bytes × Bytes))
    (hnd : NodupKeys Prod.fst kvs) (hnew : ∀ kv ∈ kvs, dictGet h kv.1 = none) :
    (buildHash h kvs).WF ∧ (buildHash h kvs).count = h.count + kvs.length ∧
      (∀ f v, (f, v) ∈ kvs → dictGet (buildHash h kvs) f = some v) ∧
      ∀ f, (∀ kv ∈ kvs, kv.1 ≠ f) → dictGet (buildHash h kvs) f = dictGet h f := by
  induction kvs generalizing h with
  | nil => exact ⟨hh, rfl, fun _ _ hkv => absurd hkv List.not_mem_nil, fun _ _ => rfl⟩
  | cons kv kvs ih =>
    obtain ⟨hne, hnd'⟩ := hnd.of_cons
    obtain ⟨hwf, hperm⟩ := dictSet_spec hh kv.1 kv.2
    have hget := dictGet_dictSet hh kv.1 kv.2
    -- the field is new to the table, so it adds one entry
    have hcount : (dictSet h kv.1 kv.2).count = h.count + 1 := by
      have hfresh := (dictGet_eq_none_iff hh).mp (hnew kv List.mem_cons_self)
      rw [hwf.count_eq, hperm.length_eq, without_of_forall_ne hfresh, List.length_cons,
        hh.count_eq]
    -- the other fields are new to the table that has this one
    obtain ⟨h1, h2, h3, h4⟩ := ih hwf hnd' fun kv' hkv' => by
      rw [hget, Function.update_of_ne (hne kv' hkv')]
      exact hnew kv' (List.mem_cons_of_mem kv hkv')
    refine ⟨h1, h2.trans (by rw [hcount, List.length_cons]; omega), fun f v hfv => ?_,
      fun f hf => ?_⟩
    · rcases List.mem_cons.mp hfv with heq | hmem
      · -- no later field overrides it
        obtain rfl := heq
        rw [show buildHash h ((f, v) :: kvs) = buildHash (dictSet h f v) kvs from rfl,
          h4 f hne, hget, Function.update_self]
      · exact h3 f v hmem
    · refine (h4 f fun kv' hkv' => hf kv' (List.mem_cons_of_mem kv hkv')).trans ?_
      rw [hget, Function.update_of_ne (hf kv List.mem_cons_self).symm]

/-- A hash that was built from small fields has small fields. -/
theorem buildHash_small {h : Dict Bytes} (hh : h.WF) (kvs : List (Bytes × Bytes))
    (hkvs : ∀ kv ∈ kvs, SmallBlob kv.1 ∧ SmallBlob kv.2)
    (hsmall : ∀ e ∈ h.entries, SmallBlob e.key ∧ SmallBlob e.val) :
    ∀ e ∈ (buildHash h kvs).entries, SmallBlob e.key ∧ SmallBlob e.val := by
  induction kvs generalizing h with
  | nil => exact hsmall
  | cons kv kvs ih =>
    obtain ⟨hwf, hperm⟩ := dictSet_spec hh kv.1 kv.2
    refine ih hwf (fun kv' hkv' => hkvs kv' (List.mem_cons_of_mem kv hkv')) fun e he => ?_
    rcases List.mem_cons.mp (hperm.subset he) with rfl | he
    · exact hkvs kv List.mem_cons_self
    · exact hsmall e (mem_without.mp he).1

/-- The reloaded hash has the first 4096 fields, and all of them if there are no more. -/
theorem reloadHash_spec {h : Dict Bytes} (hh : h.WF) :
    let h' := buildHash dictNew (dictEach h (collectCb RDB_BUFFER) [])
    h'.WF ∧ h'.count = min RDB_BUFFER h.count ∧
      (h.count ≤ RDB_BUFFER → ∀ f, dictGet h' f = dictGet h f) := by
  intro h'
  have hcollect := dictEach_collectCb h RDB_BUFFER
  -- the fields that are collected are different, as those of the table are
  have hall : NodupKeys Prod.fst (h.entries.map fun e => (e.key, e.val)) := by
    rw [NodupKeys, List.map_map]
    exact hh.nodup
  have hnd : NodupKeys Prod.fst (dictEach h (collectCb RDB_BUFFER) []) := by
    rw [hcollect]
    exact hall.sublist ((List.take_sublist _ _).map Prod.fst)
  obtain ⟨hwf, hcount, hmem, hnot⟩ :=
    buildHash_spec wf_dictNew _ hnd fun kv _ => by rw [dictGet_dictNew]
  refine ⟨hwf, ?_, fun hle f => ?_⟩
  · -- each collected field adds one entry
    rw [hcount, hcollect, List.length_take, List.length_map, ← hh.count_eq]
    exact Nat.zero_add _
  · -- the buffer takes all the fields
    have hfull : dictEach h (collectCb RDB_BUFFER) [] = h.entries.map fun e => (e.key, e.val) := by
      rw [hcollect]
      refine List.take_of_length_le ?_
      rw [List.length_map, ← hh.count_eq]
      exact hle
    have hh' : h' = buildHash dictNew (h.entries.map fun e => (e.key, e.val)) := by
      show buildHash dictNew (dictEach h (collectCb RDB_BUFFER) []) = _
      rw [hfull]
    rw [hfull] at hmem hnot
    rw [hh']
    -- a field that was there is written, and one that was not is not built
    cases hf : dictGet h f with
    | none =>
      rw [dictGet_eq_none_iff hh] at hf
      refine (hnot f fun kv hkv => ?_).trans (by rw [dictGet_dictNew])
      obtain ⟨e, he, rfl⟩ := List.mem_map.mp hkv
      exact hf e he
    | some v =>
      exact hmem f v (List.mem_map.mpr ⟨_, (dictGet_eq_some_iff hh).mp hf, rfl⟩)

/-- Two well-formed tables with the same map have the same number of entries. -/
theorem count_congr {α : Type} {h h' : Dict α} (hh : h.WF) (hh' : h'.WF)
    (heq : ∀ f, dictGet h' f = dictGet h f) : h'.count = h.count := by
  have hrel : DictRel h (dictGet h) := ⟨hh, rfl⟩
  have hrel' : DictRel h' (dictGet h) := ⟨hh', funext heq⟩
  exact hrel'.size_eq.trans hrel.size_eq.symm

/-- A value in order: the tables of hashes and sorted sets are well formed, and the skip
list is linked. Whatever the commands do, values stay so. -/
def Value.WF : Value → Prop
  | .hash h => h.WF
  | .zset z => (∃ C, z.sl.Holds C) ∧ z.ht.WF
  | _ => True

/-- Lengths and counts that 32 bits hold. -/
def Value.Fits : Value → Prop
  | .str s => SmallBlob s
  | .list l => l.length < 2 ^ 32 ∧ ∀ e ∈ l, SmallBlob e
  | .hash h => ∀ e ∈ h.entries, SmallBlob e.key ∧ SmallBlob e.val
  | .zset z => zsetCard z < 2 ^ 32 ∧ ∀ C, z.sl.Reads C → ∀ c ∈ C, SmallBlob c.1

/-- A database of values in order whose lengths and counts fit. -/
structure Database (d : Dict Obj) : Prop where
  wf : d.WF
  count : d.count < 2 ^ 64
  keys : ∀ key o, dictGet d key = some o → SmallBlob key
  values : ∀ key o, dictGet d key = some o → o.value.WF ∧ o.value.Fits

/-- Every sorted set of the database is written whole. -/
def SmallZSets (d : Dict Obj) : Prop :=
  ∀ key o z, dictGet d key = some o → o.value = .zset z → zsetCard z ≤ RDB_BUFFER

/-! ### Sorted sets -/

variable (libc : Libc)

/-- One record more. -/
def setScore (M : Bytes → Option Double) (c : Bytes × Double) : Bytes → Option Double :=
  Function.update M c.1 (some c.2)

/-- The map of a list of records, where a later record overrides an earlier one. -/
def laterWins (cs : List (Bytes × Double)) : Bytes → Option Double :=
  cs.foldl setScore fun _ => none

/-- The skip list, read as C strings with later nodes overriding earlier ones, denotes the
map of the table. -/
def ZSet.ReadsAsTable (z : ZSet) : Prop :=
  ∃ C, z.sl.Reads C ∧ ∀ m, Option.Rel SameScore (laterWins C m) (zsetScore libc z m)

/-- Scores that are the same are so in both orders. -/
theorem SameScore.symm {s t : Double} (h : SameScore s t) : SameScore t s :=
  h.imp Eq.symm And.symm

/-- And through a third one. -/
theorem SameScore.trans {s t u : Double} (h : SameScore s t) (h' : SameScore t u) :
    SameScore s u := by
  rcases h with rfl | ⟨hs, ht⟩
  · exact h'
  · rcases h' with rfl | ⟨-, hu⟩
    · exact Or.inr ⟨hs, ht⟩
    · exact Or.inr ⟨hs, hu⟩

/-- The nodes, read as C strings, have room beside each other: added to an empty sorted set one
after the other, none takes out another, whatever the coins make of their levels. -/
def ZSet.NodesCoexist (z : ZSet) : Prop :=
  ∀ C, z.sl.Reads C → ∀ coins, NoneTakenOut libc zsetNew coins C

/-- The same members with the same scores in both indexes: in the table, in the length, and along
the chain. -/
structure ZSet.SameMembers (z' z : ZSet) : Prop where
  scores : ∀ m, Option.Rel SameScore (zsetScore libc z' m) (zsetScore libc z m)
  card : zsetCard z' = zsetCard z
  nodes : ∃ C C', z.sl.Reads C ∧ z'.sl.Reads C' ∧ C'.Perm C

/-- The records, as long as the size fits in 32 bits: the first 4096 nodes. -/
theorem zsetRecords_eq {z : ZSet} {C : List (Bytes × Double)} (hC : z.sl.Holds C)
    (hcard : zsetCard z < 2 ^ 32) :
    zsetCard z = C.length ∧
      zsetRecords z = (C.map fun c => (cstr c.1, c.2)).take RDB_BUFFER := by
  -- the chain has as many nodes as the list says
  have hlen : zsetCard z = C.length := by
    obtain ⟨L, hR, rfl⟩ := hC
    rw [List.length_map]
    exact hR.length_eq
  refine ⟨hlen, ?_⟩
  rw [zsetRecords, zsetRange, slRangeByRank_holds hC, ← hlen, toUInt32_toNat hcard,
    ← List.map_take]
  congr 1
  -- from rank 0 to the last one, no more than the buffer takes
  have hlow : rangeLow (zsetCard z) 0 = 0 := rfl
  have hhigh : rangeHigh (zsetCard z) ((zsetCard z : Int) - 1) = (zsetCard z : Int) - 1 := by
    rw [rangeHigh]
    omega
  rw [hlow, hhigh, Int.toNat_zero, List.drop_zero]
  have hmin : min ((zsetCard z : Int) - 1 - 0 + 1).toNat (RDB_BUFFER : Int).toNat =
      min RDB_BUFFER (zsetCard z) := by
    rw [Int.toNat_natCast]
    omega
  rw [hmin, hlen, ← List.take_eq_take_min]

/-- The records added to a table of scores, which is written whatever the skip list does. -/
theorem buildZSet_ht (cs : List (Bytes × Double)) {z : ZSet} (coins : Coins)
    {M : Bytes → Option Double} (hwf : z.ht.WF)
    (hM : dictGet z.ht = fun m => (M m).map libc.printG17) :
    dictGet (buildZSet libc z coins cs).1.ht =
      fun m => (cs.foldl setScore M m).map libc.printG17 := by
  induction cs generalizing z coins M with
  | nil => exact hM
  | cons c cs ih =>
    -- one score more in the table is one more in the map
    refine ih _ (wf_dictSet hwf c.1 _) ?_
    show dictGet (dictSet z.ht c.1 _) = _
    rw [dictGet_dictSet hwf, hM]
    exact (Function.comp_update (Option.map libc.printG17) M c.1 (some c.2)).symm

/-- The table of a rebuilt sorted set is the map of its records, as text. -/
theorem buildZSet_score (hlibc : libc.Exact) (cs : List (Bytes × Double)) (coins : Coins)
    (m : Bytes) :
    Option.Rel SameScore (zsetScore libc (buildZSet libc zsetNew coins cs).1 m)
      (laterWins cs m) := by
  have hget := buildZSet_ht libc cs (z := zsetNew) coins (M := fun _ => none) wf_dictNew
    dictGet_dictNew
  rw [zsetScore, htGetScore_eq hget]
  show Option.Rel SameScore ((laterWins cs m).map _) _
  cases laterWins cs m with
  | none => exact Option.Rel.none
  | some s => exact Option.Rel.some (hlibc.sameScore s).symm

/-- Records of other members leave the score of a member alone. -/
theorem foldl_setScore_of_ne {cs : List (Bytes × Double)} {m : Bytes}
    (hne : ∀ c ∈ cs, c.1 ≠ m) (M : Bytes → Option Double) : cs.foldl setScore M m = M m := by
  induction cs generalizing M with
  | nil => rfl
  | cons c cs ih =>
    obtain ⟨hc, hcs⟩ := List.forall_mem_cons.mp hne
    rw [List.foldl_cons, ih hcs, setScore, Function.update_of_ne hc.symm]

variable {libc} in
/-- The addition of pairs, one after the other. -/
theorem ZRel.build (hlibc : libc.Exact) {cs : List (Bytes × Double)}
    (hcs : ∀ p ∈ cs, NulFree p.1 ∧ p.2.isNaN = false) {z : ZSet} (coins : Coins)
    {M : Bytes → Option Double} (h : ZRel libc z M) :
    ZRel libc (buildZSet libc z coins cs).1 (cs.foldl setScore M) := by
  induction cs generalizing z coins M with
  | nil => exact h
  | cons c cs ih =>
    have hnext := (h.step (s := (z, coins)) hlibc (.add c.1 c.2) (hcs c List.mem_cons_self)).1
    exact ih (fun p hp => hcs p (List.mem_cons_of_mem c hp)) _ hnext

/-- Without repetitions, later records override nothing. -/
theorem laterWins_of_nodup {cs : List (Bytes × Double)} (hnd : NodupKeys Prod.fst cs)
    (m : Bytes) (s : Double) : laterWins cs m = some s ↔ (m, s) ∈ cs := by
  by_cases hm : ∃ t, (m, t) ∈ cs
  · -- the one record of the member is written, and stays
    obtain ⟨t, ht⟩ := hm
    -- there is no other record of the member
    have hunique : (m, s) ∈ cs ↔ t = s := by
      refine ⟨fun hs => ?_, fun h => h ▸ ht⟩
      exact congrArg Prod.snd (hnd.eq_of_key_eq ht hs rfl)
    obtain ⟨cs₁, cs₂, rfl⟩ := List.append_of_mem ht
    obtain ⟨hne, -⟩ := (hnd.perm List.perm_middle).of_cons
    rw [hunique, laterWins, List.foldl_append, List.foldl_cons,
      foldl_setScore_of_ne fun c hc => hne c (List.mem_append_right cs₁ hc)]
    simp [setScore]
  · -- nothing is ever written for the member
    have hne : ∀ c ∈ cs, c.1 ≠ m := fun c hc heq => hm ⟨c.2, heq ▸ hc⟩
    rw [laterWins, foldl_setScore_of_ne hne]
    exact ⟨fun h => absurd h (Option.some_ne_none s).symm, fun h => absurd ⟨s, h⟩ hm⟩

/-- Indexes that agree are read as the table. -/
theorem ZSet.Agree.readsAsTable {z : ZSet} (h : z.Agree libc) : z.ReadsAsTable libc := by
  obtain ⟨⟨C, hC, hnd, -, hforth, hback⟩, -⟩ := h
  refine ⟨C, hC, fun m => ?_⟩
  rw [zsetScore]
  cases hs : laterWins C m with
  | some s =>
    -- a node of the member: the table has its score
    obtain ⟨t, ht, hst⟩ := hforth m s ((laterWins_of_nodup hnd m s).mp hs)
    rw [ht]
    exact Option.Rel.some hst
  | none =>
    cases ht : htGetScore libc z.ht m with
    | none => exact Option.Rel.none
    | some t =>
      -- no node, and a score in the table: the indexes would not agree
      obtain ⟨s, hmem, -⟩ := hback m t ht
      rw [(laterWins_of_nodup hnd m s).mpr hmem] at hs
      exact absurd hs (Option.some_ne_none s)

/-- The nodes of indexes that agree are different, so they have room beside each other. -/
theorem ZSet.Agree.nodesCoexist {z : ZSet} (h : z.Agree libc) : z.NodesCoexist libc := by
  intro C hreads coins
  obtain ⟨⟨C', hC', hnd, -⟩, -⟩ := h
  obtain rfl := hreads.unique hC'
  have hcstr : (C.map fun c => cstr c.1) = C.map Prod.fst :=
    List.map_congr_left fun c hc => (hreads.nulFree c hc).cstr_eq
  exact noneTakenOut_of_cstr C holds_slNew coins (hcstr.symm ▸ hnd) fun c hc => by cases hc

/-- The scores are the same up to NaNs, in either order. -/
theorem sameScores_symm {a b : Option Double} (h : Option.Rel SameScore a b) :
    Option.Rel SameScore b a := by
  cases h with
  | some h => exact Option.Rel.some h.symm
  | none => exact Option.Rel.none

/-- And through a third one. -/
theorem sameScores_trans {a b c : Option Double} (h : Option.Rel SameScore a b)
    (h' : Option.Rel SameScore b c) : Option.Rel SameScore a c := by
  cases h with
  | some h =>
    cases h' with
    | some h' => exact Option.Rel.some (h.trans h')
  | none => exact h'

/-- **A sorted set that is rebuilt** from what can be read off its chain has the same members if
and only if the chain reads as the table and the nodes have room beside each other. -/
theorem sameMembers_buildZSet_iff (hlibc : libc.Exact) {z : ZSet} {cs : List (Bytes × Double)}
    (hreads : z.sl.Reads cs) (hcard : zsetCard z = cs.length) (coins : Coins) :
    (buildZSet libc zsetNew coins cs).1.SameMembers libc z ↔
      z.ReadsAsTable libc ∧ NoneTakenOut libc zsetNew coins cs := by
  have hscore := buildZSet_score libc hlibc cs coins
  -- one node for each record, as long as none is taken out
  have hlength := length_buildZSet_eq_iff libc cs holds_slNew coins (z := zsetNew)
  have hempty : zsetNew.sl.length = 0 := rfl
  rw [hempty, Nat.zero_add] at hlength
  constructor
  · intro h
    refine ⟨⟨cs, hreads, fun m => ?_⟩, hlength.mp (h.card.trans hcard)⟩
    exact sameScores_trans (sameScores_symm (hscore m)) (h.scores m)
  · rintro ⟨⟨C, hC, htable⟩, hnone⟩
    obtain rfl := hreads.unique hC
    obtain ⟨C', hholds, hperm⟩ := perm_buildZSet cs holds_slNew coins hnone
    rw [List.append_nil] at hperm
    refine ⟨fun m => sameScores_trans (hscore m) (htable m), (hlength.mpr hnone).trans hcard.symm,
      cs, C', hreads, ?_, hperm⟩
    exact hholds.reads_of_nulFree fun c hc => hreads.nulFree c (hperm.subset hc)

/-! ### Databases -/

/-- What a sorted set that fits is written as. -/
theorem records_of_fits {z : ZSet} (hwf : (Value.zset z).WF) (hfits : (Value.zset z).Fits) :
    (zsetCard z).toUInt32.toNat = zsetCard z ∧
      (zsetRecords z).length = min RDB_BUFFER (zsetCard z) ∧
      (∀ c ∈ zsetRecords z, SmallBlob c.1) ∧
      (zsetCard z ≤ RDB_BUFFER → z.sl.Reads (zsetRecords z)) := by
  obtain ⟨⟨C, hC⟩, -⟩ := hwf
  obtain ⟨hlt, hsmall⟩ := hfits
  obtain ⟨hcard, hrec⟩ := zsetRecords_eq hC hlt
  refine ⟨toUInt32_toNat hlt, ?_, fun c hc => ?_, fun hle => ?_⟩
  · rw [hrec, List.length_take, List.length_map, hcard]
  · -- what is written of a member is its C string
    rw [hrec] at hc
    exact hsmall _ hC.reads c (List.mem_of_mem_take hc)
  · -- the buffer takes every node
    have hall : (C.map fun c => (cstr c.1, c.2)).length ≤ RDB_BUFFER := by
      rw [List.length_map, ← hcard]
      exact hle
    rw [hrec, List.take_of_length_le hall]
    exact hC.reads

/-- A database that fits is written with the right lengths, if the counts of its sorted sets
are those of their records. -/
theorem Database.sized {d : Dict Obj} (hd : Database d)
    (hcounts : ∀ key o z, dictGet d key = some o → o.value = .zset z →
      (zsetCard z).toUInt32.toNat = (zsetRecords z).length) : d.Sized := by
  refine ⟨hd.count, fun e he => ?_⟩
  -- the entry is what the lookup of its key finds
  have hget : dictGet d e.key = some e.val := (dictGet_eq_some_iff hd.wf).mpr he
  obtain ⟨hwf, hfits⟩ := hd.values _ _ hget
  refine ⟨hd.keys _ _ hget, ?_⟩
  cases hv : e.val.value with
  | str s => rwa [hv] at hfits
  | list l => rwa [hv] at hfits
  | hash h => rwa [hv] at hfits
  | zset z =>
    rw [hv] at hwf hfits
    exact ⟨hcounts _ _ z hget hv, (records_of_fits hwf hfits).2.2.1⟩

/-- The counts are right exactly when the sorted sets fit into the buffer. -/
theorem Database.counts_iff {d : Dict Obj} (hd : Database d) :
    (∀ key o z, dictGet d key = some o → o.value = .zset z →
      (zsetCard z).toUInt32.toNat = (zsetRecords z).length) ↔ SmallZSets d := by
  refine forall₅_congr fun key o z ho hz => ?_
  obtain ⟨hwf, hfits⟩ := hd.values key o ho
  rw [hz] at hwf hfits
  obtain ⟨hcard, hlen, -, -⟩ := records_of_fits hwf hfits
  -- the count is written before the buffer cuts the records off
  rw [hcard, hlen]
  omega

/-- Every sorted set survives the snapshot: the counts written are those of the records, the
file is accepted, and a sorted set that is not dropped has exactly its members and scores, in
both indexes. -/
structure ZSetsSurvive (now : Int64) (d : Dict Obj) (load : LoadState × Bool) : Prop where
  counts : ∀ key o z, dictGet d key = some o → o.value = .zset z →
    (zsetCard z).toUInt32.toNat = (zsetRecords z).length
  accepted : load.2 = true
  kept : ∀ key o z, dictGet d key = some o → o.value = .zset z → ¬o.dropped now →
    ∃ z', dictGet load.1.dict key = some ⟨.zset z', o.expireAtMs⟩ ∧ z'.SameMembers libc z

/-- Every hash survives the snapshot: the file is accepted, and a hash that is not dropped
has its fields and their values. -/
structure HashesSurvive (now : Int64) (d : Dict Obj) (load : LoadState × Bool) : Prop where
  accepted : load.2 = true
  kept : ∀ key o h, dictGet d key = some o → o.value = .hash h → ¬o.dropped now →
    ∃ h', dictGet load.1.dict key = some ⟨.hash h', o.expireAtMs⟩ ∧
      ∀ f, htableGet h' f = htableGet h f

section Save

variable {fs : FileSys} (hopen : fs.canOpen = true) (hroom : fs.room = none)
  (hrename : fs.canRename = true) (now : Int64) {d : Dict Obj} (hd : Database d)
  (path : Bytes) (coins : Coins)

include hopen hroom hrename hd

/-- A sorted set that is kept comes back as its records build it. -/
theorem zset_kept (hsmall : SmallZSets d) {key : Bytes} {o : Obj} {z : ZSet}
    (ho : dictGet d key = some o) (hz : o.value = .zset z) (hdrop : ¬o.dropped now) :
    ∃ coins', dictGet (rdbLoad libc now ((rdbSave fs d path).1.files path) dictNew coins).1.dict
      key = some ⟨.zset (buildZSet libc zsetNew coins' (zsetRecords z)).1, o.expireAtMs⟩ := by
  obtain ⟨-, -, -, hrel⟩ := rdb_reload libc hopen hroom hrename now hd.wf
    (hd.sized (hd.counts_iff.mpr hsmall)) path coins
  obtain ⟨coins', hget⟩ := hrel.kept key o ho hdrop
  rw [hz] at hget
  exact ⟨coins', hget⟩

/-- With the right coins in front, it is built with any. -/
theorem zset_kept_coins (hsmall : SmallZSets d) {key : Bytes} {o : Obj} {z : ZSet}
    (ho : dictGet d key = some o) (hz : o.value = .zset z) (hdrop : ¬o.dropped now)
    (coins' : Coins) :
    ∃ coins, dictGet (rdbLoad libc now ((rdbSave fs d path).1.files path) dictNew coins).1.dict
      key = some ⟨.zset (buildZSet libc zsetNew coins' (zsetRecords z)).1, o.expireAtMs⟩ := by
  obtain ⟨coins, hget⟩ := rdb_reload_coins libc hopen hroom hrename now hd.wf
    (hd.sized (hd.counts_iff.mpr hsmall)) path ho hdrop coins'
  rw [hz] at hget
  exact ⟨coins, hget⟩

omit hopen hroom hrename in
/-- The records of a sorted set that fits are what can be read off it. -/
theorem Database.reads_records (hsmall : SmallZSets d) {key : Bytes} {o : Obj} {z : ZSet}
    (ho : dictGet d key = some o) (hz : o.value = .zset z) :
    z.sl.Reads (zsetRecords z) ∧ zsetCard z = (zsetRecords z).length := by
  obtain ⟨hwf, hfits⟩ := hd.values key o ho
  rw [hz] at hwf hfits
  obtain ⟨-, hlen, -, hreads⟩ := records_of_fits hwf hfits
  have hle := hsmall key o z ho hz
  exact ⟨hreads hle, (hlen.trans (Nat.min_eq_right hle)).symm⟩

/-- A hash that is kept comes back as its written fields build it. -/
theorem hash_kept (hsmall : SmallZSets d) {key : Bytes} {o : Obj} {h : Dict Bytes}
    (ho : dictGet d key = some o) (hh : o.value = .hash h) (hdrop : ¬o.dropped now) :
    h.WF ∧ dictGet (rdbLoad libc now ((rdbSave fs d path).1.files path) dictNew coins).1.dict key =
      some ⟨.hash (buildHash dictNew (dictEach h (collectCb RDB_BUFFER) [])), o.expireAtMs⟩ := by
  obtain ⟨-, -, -, hrel⟩ := rdb_reload libc hopen hroom hrename now hd.wf
    (hd.sized (hd.counts_iff.mpr hsmall)) path coins
  obtain ⟨coins', hget⟩ := hrel.kept key o ho hdrop
  have hwf := (hd.values key o ho).1
  rw [hh] at hget hwf
  exact ⟨hwf, hget⟩

/-- A hash that survives had at most 4096 fields. -/
theorem hash_le_of_survive (hsmall : SmallZSets d)
    (hsurvive : HashesSurvive now d
      (rdbLoad libc now ((rdbSave fs d path).1.files path) dictNew coins))
    {key : Bytes} {o : Obj} {h : Dict Bytes} (ho : dictGet d key = some o)
    (hh : o.value = .hash h) (hdrop : ¬o.dropped now) : htableLen h ≤ RDB_BUFFER := by
  obtain ⟨hwf, hget⟩ := hash_kept libc hopen hroom hrename now hd path coins hsmall ho hh hdrop
  obtain ⟨h', hget', hsame⟩ := hsurvive.kept key o h ho hh hdrop
  obtain ⟨hwf', hcount, -⟩ := reloadHash_spec hwf
  have heq : buildHash dictNew (dictEach h (collectCb RDB_BUFFER) []) = h' := by
    rw [hget, Option.some.injEq, Obj.mk.injEq, Value.hash.injEq] at hget'
    exact hget'.1
  rw [heq] at hwf' hcount
  -- the reloaded table has `min 4096 count` fields, and as many as the old one
  have hlen : h'.count = h.count := count_congr hwf hwf' hsame
  show h.count ≤ RDB_BUFFER
  omega

/-- **Sorted sets in a snapshot.** With every file operation succeeding, the sorted sets of
a database survive, whatever the coins show, if and only if none has more than 4096 members and
each that is not dropped reads as its table and has nodes with room beside each other. Sorted
sets whose two indexes agree do. -/
theorem rdb_zsets_survive_iff (hlibc : libc.Exact) :
    ((∀ coins, (rdbSave fs d path).2 = true ∧ ZSetsSurvive libc now d
        (rdbLoad libc now ((rdbSave fs d path).1.files path) dictNew coins)) ↔
      SmallZSets d ∧ ∀ key o z, dictGet d key = some o → o.value = .zset z → ¬o.dropped now →
        z.ReadsAsTable libc ∧ z.NodesCoexist libc) ∧
      ∀ z : ZSet, z.Agree libc → z.ReadsAsTable libc ∧ z.NodesCoexist libc := by
  refine ⟨⟨fun h => ?_, ?_⟩, fun z h => ⟨h.readsAsTable libc, h.nodesCoexist libc⟩⟩
  · have hsmall := hd.counts_iff.mp (h fun _ => false).2.counts
    refine ⟨hsmall, fun key o z ho hz hdrop => ?_⟩
    obtain ⟨hreads, hcard⟩ := hd.reads_records hsmall ho hz
    -- what comes back is what the records build, with coins that can be any
    have hrebuilt : ∀ coins', z.ReadsAsTable libc ∧
        NoneTakenOut libc zsetNew coins' (zsetRecords z) := by
      intro coins'
      obtain ⟨coins, hget⟩ := zset_kept_coins libc hopen hroom hrename now hd path hsmall ho hz
        hdrop coins'
      obtain ⟨z', hget', hsame⟩ := (h coins).2.kept key o z ho hz hdrop
      rw [hget, Option.some.injEq, Obj.mk.injEq, Value.zset.injEq] at hget'
      rw [← hget'.1] at hsame
      exact (sameMembers_buildZSet_iff libc hlibc hreads hcard coins').mp hsame
    refine ⟨(hrebuilt fun _ => false).1, fun C hC coins' => ?_⟩
    obtain rfl := hreads.unique hC
    exact (hrebuilt coins').2
  · rintro ⟨hsmall, hcond⟩ coins
    obtain ⟨hsave, hload, -, -⟩ := rdb_reload libc hopen hroom hrename now hd.wf
      (hd.sized (hd.counts_iff.mpr hsmall)) path coins
    refine ⟨hsave, hd.counts_iff.mpr hsmall, hload, fun key o z ho hz hdrop => ?_⟩
    obtain ⟨hreads, hcard⟩ := hd.reads_records hsmall ho hz
    obtain ⟨htable, hcoexist⟩ := hcond key o z ho hz hdrop
    obtain ⟨coins', hget⟩ := zset_kept libc hopen hroom hrename now hd path coins hsmall ho hz hdrop
    exact ⟨_, hget, (sameMembers_buildZSet_iff libc hlibc hreads hcard coins').mpr
      ⟨htable, hcoexist _ hreads coins'⟩⟩

/-- **Hashes in a snapshot.** With every file operation succeeding, and no sorted set of more
than 4096 members in the way, the hashes of a database survive if and only if each that is
not dropped has at most 4096 fields. -/
theorem rdb_hashes_survive_iff (hsmall : SmallZSets d) :
    (rdbSave fs d path).2 = true ∧
      HashesSurvive now d (rdbLoad libc now ((rdbSave fs d path).1.files path) dictNew coins) ↔
      ∀ key o h, dictGet d key = some o → o.value = .hash h → ¬o.dropped now →
        htableLen h ≤ RDB_BUFFER := by
  constructor
  · rintro ⟨-, hsurvive⟩ key o h ho hh hdrop
    exact hash_le_of_survive libc hopen hroom hrename now hd path coins hsmall hsurvive ho hh hdrop
  · intro hle
    -- a hash that fits into the buffer is written whole
    obtain ⟨hsave, hload, -, -⟩ := rdb_reload libc hopen hroom hrename now hd.wf
      (hd.sized (hd.counts_iff.mpr hsmall)) path coins
    refine ⟨hsave, hload, fun key o h ho hh hdrop => ?_⟩
    obtain ⟨hwf, hget⟩ := hash_kept libc hopen hroom hrename now hd path coins hsmall ho hh hdrop
    exact ⟨_, hget, (reloadHash_spec hwf).2.2 (hle key o h ho hh hdrop)⟩

end Save

/-! ### Databases of one key -/

/-- The database of one key without a deadline. -/
def oneKey (key : Bytes) (value : Value) : Dict Obj := dictSet dictNew key (newObj value)

/-- The one key has the value, and no other has one. -/
theorem dictGet_oneKey (key : Bytes) (value : Value) (k : Bytes) (o : Obj) :
    dictGet (oneKey key value) k = some o ↔ k = key ∧ o = newObj value := by
  rw [oneKey, dictGet_dictSet wf_dictNew, dictGet_dictNew]
  by_cases hk : k = key
  · subst hk
    simp [eq_comm]
  · simp [hk]

/-- A database stays one when a value that fits is stored in it. -/
theorem Database.set {d : Dict Obj} (hd : Database d) {key : Bytes} {o : Obj}
    (hkey : SmallBlob key) (hwf : o.value.WF) (hfits : o.value.Fits)
    (hcount : (dictSet d key o).count < 2 ^ 64) : Database (dictSet d key o) := by
  have hget : ∀ k p, dictGet (dictSet d key o) k = some p →
      (k = key ∧ p = o) ∨ dictGet d k = some p := by
    intro k p hp
    rw [dictGet_dictSet hd.wf] at hp
    by_cases hk : k = key
    · rw [hk, Function.update_self] at hp
      exact Or.inl ⟨hk, (Option.some.inj hp).symm⟩
    · rw [Function.update_of_ne hk] at hp
      exact Or.inr hp
  refine ⟨wf_dictSet hd.wf key o, hcount, fun k p hp => ?_, fun k p hp => ?_⟩
  · rcases hget k p hp with ⟨rfl, -⟩ | hp
    · exact hkey
    · exact hd.keys k p hp
  · rcases hget k p hp with ⟨-, rfl⟩ | hp
    · exact ⟨hwf, hfits⟩
    · exact hd.values k p hp

/-- The empty database. -/
theorem database_dictNew : Database dictNew := by
  refine ⟨wf_dictNew, by decide, fun k o ho => ?_, fun k o ho => ?_⟩
  all_goals
    rw [dictGet_dictNew] at ho
    cases ho

/-- A database of one value that fits. -/
theorem database_oneKey {key : Bytes} {value : Value} (hkey : SmallBlob key) (hwf : value.WF)
    (hfits : value.Fits) : Database (oneKey key value) := by
  obtain ⟨hd, hperm⟩ := dictSet_spec wf_dictNew key (newObj value)
  refine database_dictNew.set hkey hwf hfits ?_
  rw [hd.count_eq, hperm.length_eq, entries_dictNew]
  exact Nat.lt_of_le_of_lt le_rfl (by decide : 1 < 2 ^ 64)

/-- A sorted set of one member, which may have any bytes. -/
theorem zsetAdd_new (member : Bytes) (score : Double) (coins : Coins)
    (hmember : SmallBlob (cstr member)) :
    let z := (zsetAdd libc zsetNew member score coins).1
    z.sl.Reads [(cstr member, score)] ∧ (Value.zset z).WF ∧ (Value.zset z).Fits ∧
      zsetCard z = 1 ∧ zsetScore libc z member = some (libc.strtod (libc.printG17 score)) := by
  intro z
  -- the skip list is fresh, so there is one position to insert at
  have hz : z.sl = slInsert slNew member score (randomLevel coins).1 := by
    have habsent : htGetScore libc zsetNew.ht member = none := by
      show (dictGet dictNew member).map libc.strtod = none
      rw [dictGet_dictNew]
      rfl
    exact zsetAdd_of_absent libc habsent score coins
  have hholds : z.sl.Holds [(member, score)] := by
    obtain ⟨C₁, C₂, hsplit, -, hC⟩ :=
      slInsert_holds holds_slNew member score (randomLevel_bounds coins).1 [] rfl
    obtain ⟨rfl, rfl⟩ := List.append_eq_nil_iff.mp hsplit.symm
    rw [hz]
    exact hC
  -- the list has one node
  have hcard : zsetCard z = 1 := by
    obtain ⟨L, hR, hL⟩ := hholds
    show z.sl.length = 1
    rw [hR.length_eq, ← List.length_map (f := slPair z.sl), hL]
    rfl
  refine ⟨hholds.reads, ⟨⟨_, hholds⟩, wf_dictSet wf_dictNew _ _⟩, ⟨by rw [hcard]; decide, ?_⟩,
    hcard, ?_⟩
  · intro C hC c hc
    -- the only record is the C string of the member
    rw [hC.unique hholds.reads] at hc
    obtain rfl := List.mem_singleton.mp hc
    exact hmember
  · show (dictGet (dictSet dictNew member _) member).map libc.strtod = _
    rw [dictGet_dictSet_self wf_dictNew]
    rfl

/-- A sorted set that fits is no oversized one. -/
theorem smallZSets_oneKey_zset {key : Bytes} {z : ZSet} (hz : zsetCard z ≤ RDB_BUFFER) :
    SmallZSets (oneKey key (.zset z)) := by
  intro k o z' ho hz'
  rw [((dictGet_oneKey _ _ k o).mp ho).2] at hz'
  obtain rfl := Value.zset.inj hz'
  exact hz

/-- A hash is no sorted set. -/
theorem smallZSets_oneKey_hash {key : Bytes} {h : Dict Bytes} :
    SmallZSets (oneKey key (.hash h)) := by
  intro k o z ho hz
  rw [((dictGet_oneKey _ _ k o).mp ho).2] at hz
  exact absurd hz (by simp [newObj])

/-- A member with a NUL byte comes back as its C string. -/
theorem rdb_zset_member_lost :
    let z := (zsetAdd Libc.plain zsetNew [97, 0, 98] .one fun _ => false).1
    let d := oneKey (ascii "z") (.zset z)
    ¬ZSetsSurvive Libc.plain 0 d (rdbLoad Libc.plain 0
      ((rdbSave .fresh d (ascii "dump")).1.files (ascii "dump")) dictNew fun _ => false) := by
  intro z d hsurvive
  obtain ⟨hreads, hwf, hfits, hcard, hscore⟩ :=
    zsetAdd_new Libc.plain [97, 0, 98] .one (fun _ => false) (by decide)
  have hdb : Database d := database_oneKey (by decide) hwf hfits
  have hsmall : SmallZSets d := smallZSets_oneKey_zset (by rw [hcard]; decide)
  have ho : dictGet d (ascii "z") = some (newObj (.zset z)) :=
    (dictGet_oneKey _ _ _ _).mpr ⟨rfl, rfl⟩
  have hdrop : ¬(newObj (.zset z)).dropped 0 := fun h => h.1 rfl
  obtain ⟨coins', hget⟩ := zset_kept Libc.plain (show FileSys.fresh.canOpen = true from rfl) rfl
    rfl 0 hdb (ascii "dump") (fun _ => false) hsmall ho rfl hdrop
  obtain ⟨z', hget', hsame⟩ := hsurvive.kept _ _ z ho rfl hdrop
  rw [hget, Option.some.injEq, Obj.mk.injEq, Value.zset.injEq] at hget'
  rw [← hget'.1] at hsame
  -- the records have the C string only
  have hlost : laterWins (zsetRecords z) [97, 0, 98] = none := by
    rw [(hdb.reads_records hsmall ho rfl).1.unique hreads]
    decide
  have hnone := sameScores_trans (sameScores_symm (buildZSet_score Libc.plain Libc.plain_exact
    (zsetRecords z) coins' [97, 0, 98])) (hsame.scores [97, 0, 98])
  have hsome : zsetScore Libc.plain z [97, 0, 98] = some _ := hscore
  -- the table had a score for it
  rw [hlost, hsome] at hnone
  cases hnone

/-- What is stored under three keys. -/
theorem of_dictGet_three {k₁ k₂ k₃ k : Bytes} {o₁ o₂ o₃ o : Obj}
    (h : dictGet (dictSet (dictSet (dictSet dictNew k₁ o₁) k₂ o₂) k₃ o₃) k = some o) :
    o = o₁ ∨ o = o₂ ∨ o = o₃ := by
  rw [dictGet_dictSet (wf_dictSet (wf_dictSet wf_dictNew _ _) _ _),
    dictGet_dictSet (wf_dictSet wf_dictNew _ _), dictGet_dictSet wf_dictNew] at h
  simp only [Function.update_apply, dictGet_dictNew] at h
  split_ifs at h
  · exact Or.inr (Or.inr (Option.some.inj h).symm)
  · exact Or.inr (Or.inl (Option.some.inj h).symm)
  · exact Or.inl (Option.some.inj h).symm

/-- A sorted set that plain calls have built from few small members is in order, and fits. -/
theorem plain_zset_ok (ops : List ZSetOp) (hops : ∀ op ∈ ops, op.Plain) (coins : Coins)
    (hcard : zsetCard (run (ZSetOp.onZSet Libc.plain) (zsetNew, coins) ops).1.1 < 2 ^ 32)
    (hsmall : ∀ e ∈ (run (ZSetOp.onZSet Libc.plain) (zsetNew, coins) ops).1.1.ht.entries,
      SmallBlob e.key) :
    let z := (run (ZSetOp.onZSet Libc.plain) (zsetNew, coins) ops).1.1
    z.Agree Libc.plain ∧ (Value.zset z).WF ∧ (Value.zset z).Fits := by
  intro z
  have hrel := (zrel_run Libc.plain_exact hops coins).1
  obtain ⟨C, hinv⟩ := hrel.inv
  have hagree := hinv.agree Libc.plain_exact
  refine ⟨hagree, ⟨⟨C, hinv.holds⟩, hinv.wf⟩, hcard, fun C' hC' c hc => ?_⟩
  -- a node of the chain has its member in the table
  obtain ⟨⟨C'', hC'', -, -, hforth, -⟩, -⟩ := hagree
  obtain rfl := hC'.unique hC''
  obtain ⟨t, ht, -⟩ := hforth c.1 c.2 hc
  obtain ⟨v, hv, -⟩ := Option.map_eq_some_iff.mp ht
  exact hsmall _ ((dictGet_eq_some_iff hinv.wf).mp hv)

/-- Two sorted sets, one with a deadline, after members were moved and removed: they survive. -/
theorem rdb_zsets_survive_two :
    let z := (run (ZSetOp.onZSet Libc.plain) (zsetNew, fun _ => false) [.add (ascii "a") .one,
      .add (ascii "b") .one, .add (ascii "c") ⟨0⟩, .add (ascii "a") ⟨0⟩, .rem (ascii "b")]).1.1
    let y := (run (ZSetOp.onZSet Libc.plain) (zsetNew, fun _ => true) [.add (ascii "b") ⟨0⟩,
      .add (ascii "a") .one, .add (ascii "d") .one]).1.1
    let d := dictSet (dictSet (dictSet dictNew (ascii "s") ⟨.zset z, 0⟩) (ascii "t")
      ⟨.zset y, 5⟩) (ascii "n") (newObj (.str (ascii "v")))
    zsetCard z = 2 ∧ zsetCard y = 3 ∧ ∀ coins, ZSetsSurvive Libc.plain 3 d (rdbLoad Libc.plain 3
      ((rdbSave .fresh d (ascii "dump")).1.files (ascii "dump")) dictNew coins) := by
  intro z y d
  have hz : zsetCard z = 2 := by decide +kernel
  have hy : zsetCard y = 3 := by decide +kernel
  have hplain : ∀ m ∈ [ascii "a", ascii "b", ascii "c", ascii "d"], NulFree m := by decide
  have hnumber : Double.isNaN .one = false ∧ Double.isNaN ⟨0⟩ = false := by decide
  obtain ⟨hzagree, hzwf, hzfits⟩ := plain_zset_ok [.add (ascii "a") .one,
    .add (ascii "b") .one, .add (ascii "c") ⟨0⟩, .add (ascii "a") ⟨0⟩, .rem (ascii "b")]
    (by simp_all [ZSetOp.Plain]) (fun _ => false) (hz.trans_lt (by decide)) (by decide +kernel)
  obtain ⟨hyagree, hywf, hyfits⟩ := plain_zset_ok [.add (ascii "b") ⟨0⟩,
    .add (ascii "a") .one, .add (ascii "d") .one] (by simp_all [ZSetOp.Plain]) (fun _ => true)
    (hy.trans_lt (by decide)) (by decide +kernel)
  have hdb : Database d :=
    ((database_dictNew.set (by decide) hzwf hzfits (by decide +kernel)).set (by decide) hywf hyfits
      (by decide +kernel)).set (by decide) trivial (show SmallBlob (ascii "v") by decide)
      (by decide +kernel)
  -- the sorted sets of the database
  have hzsets : ∀ k o x, dictGet d k = some o → o.value = .zset x → x = z ∨ x = y := by
    intro k o x ho hx
    rcases of_dictGet_three ho with ho | ho | ho
    · exact Or.inl (Value.zset.inj (hx.symm.trans (congrArg Obj.value ho)))
    · exact Or.inr (Value.zset.inj (hx.symm.trans (congrArg Obj.value ho)))
    · cases hx.symm.trans (congrArg Obj.value ho)
  obtain ⟨hiff, hagree⟩ := rdb_zsets_survive_iff Libc.plain (show FileSys.fresh.canOpen = true
    from rfl) rfl rfl 3 hdb (ascii "dump") Libc.plain_exact
  refine ⟨hz, hy, fun coins => (hiff.mpr ⟨fun k o x ho hx => ?_, fun k o x ho hx _ => ?_⟩ coins).2⟩
  · rcases hzsets k o x ho hx with rfl | rfl
    · exact hz.trans_le (by decide)
    · exact hy.trans_le (by decide)
  · rcases hzsets k o x ho hx with rfl | rfl
    · exact hagree _ hzagree
    · exact hagree _ hyagree

/-- Of 4097 fields, one does not come back. -/
theorem rdb_hash_field_lost :
    let h := buildHash dictNew ((List.range 4097).map fun i => (encode 2 i, []))
    let d := oneKey (ascii "h") (.hash h)
    ¬HashesSurvive 0 d (rdbLoad Libc.plain 0
      ((rdbSave .fresh d (ascii "dump")).1.files (ascii "dump")) dictNew fun _ => false) := by
  obtain ⟨kvs, hkvs⟩ : ∃ kvs : List (Bytes × Bytes),
      kvs = (List.range 4097).map fun i => (encode 2 i, []) := ⟨_, rfl⟩
  rw [← hkvs]
  intro h d hsurvive
  -- two bytes tell the fields apart
  have hnd : NodupKeys Prod.fst kvs := by
    rw [NodupKeys, hkvs, List.map_map]
    refine List.Nodup.map_on (fun i hi j hj heq => ?_) List.nodup_range
    rw [List.mem_range] at hi hj
    rw [← decode_encode_of_lt (show i < 256 ^ 2 by omega),
      ← decode_encode_of_lt (show j < 256 ^ 2 by omega)]
    exact congrArg decode heq
  obtain ⟨hwf, hcount, -, hother⟩ :=
    buildHash_spec wf_dictNew kvs hnd fun _ _ => by rw [dictGet_dictNew]
  have hsmall : ∀ kv ∈ kvs, SmallBlob kv.1 ∧ SmallBlob kv.2 := by
    rw [hkvs]
    intro kv hkv
    obtain ⟨i, -, rfl⟩ := List.mem_map.mp hkv
    have hempty : SmallBlob [] := by decide
    refine ⟨?_, hempty⟩
    show (encode 2 i).length < 2 ^ 32 - 1
    rw [length_encode]
    decide
  have hfits : (Value.hash h).Fits := buildHash_small wf_dictNew kvs hsmall (by
    rw [entries_dictNew]
    exact fun e he => absurd he List.not_mem_nil)
  have hdb : Database d := database_oneKey (by decide) hwf hfits
  -- a hash that survives has no more fields than the buffer takes
  have hle := hash_le_of_survive Libc.plain (show FileSys.fresh.canOpen = true from rfl) rfl rfl 0
    hdb (ascii "dump") (fun _ => false) smallZSets_oneKey_hash hsurvive
    ((dictGet_oneKey _ _ _ _).mpr ⟨rfl, rfl⟩) rfl (fun h => h.1 rfl)
  -- this one has one more
  have hlen : htableLen h = 4097 := by
    show (buildHash dictNew kvs).count = 4097
    rw [hcount, hkvs, List.length_map, List.length_range]
    rfl
  rw [hlen] at hle
  exact absurd hle (by decide)

/-- Two hashes of several fields, one with a deadline, beside a list: they survive. -/
theorem rdb_hashes_survive_two :
    let g := buildHash dictNew [(ascii "e", ascii "x"), (ascii "f", []), (ascii "g", [0, 1])]
    let h := buildHash dictNew [(ascii "f", ascii "y"), ([0], ascii "z")]
    let d := dictSet (dictSet (dictSet dictNew (ascii "g") ⟨.hash g, 5⟩) (ascii "h")
      (newObj (.hash h))) (ascii "l") (newObj (.list [ascii "v"]))
    HashesSurvive 3 d (rdbLoad Libc.plain 3
      ((rdbSave .fresh d (ascii "dump")).1.files (ascii "dump")) dictNew fun _ => false) := by
  intro g h d
  have hwf : ∀ kvs, (buildHash dictNew kvs).WF := fun kvs =>
    List.foldlRecOn kvs _ wf_dictNew fun _ ht kv _ => wf_dictSet ht kv.1 kv.2
  have hdb : Database d :=
    ((database_dictNew.set (by decide) (show (Value.hash g).WF from hwf _)
      (show (Value.hash g).Fits by unfold Value.Fits; decide +kernel) (by decide +kernel)).set
      (by decide) (show (Value.hash h).WF from hwf _)
      (show (Value.hash h).Fits by unfold Value.Fits; decide +kernel) (by decide +kernel)).set
      (by decide) trivial (show (Value.list [ascii "v"]).Fits by unfold Value.Fits; decide)
      (by decide +kernel)
  refine ((rdb_hashes_survive_iff Libc.plain (show FileSys.fresh.canOpen = true from rfl) rfl rfl 3
    hdb (ascii "dump") (fun _ => false) fun k o z ho hz => ?_).mpr fun k o x ho hx _ => ?_).2
  · -- there is no sorted set in it
    rcases of_dictGet_three ho with ho | ho | ho
    all_goals cases hz.symm.trans (congrArg Obj.value ho)
  · rcases of_dictGet_three ho with ho | ho | ho
    · obtain rfl := Value.hash.inj (hx.symm.trans (congrArg Obj.value ho))
      decide
    · obtain rfl := Value.hash.inj (hx.symm.trans (congrArg Obj.value ho))
      decide
    · cases hx.symm.trans (congrArg Obj.value ho)

end Minired
