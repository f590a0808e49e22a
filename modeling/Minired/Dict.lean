import Minired.Bytes
import Minired.Lib.KeyedList

/-!
# The hash table

`dict.cpp` is a chained hash table with FNV-1a hashing, a power-of-two bucket array
and a doubling step in front of an insertion. The model follows it field by field: the
bucket array is a list of chains, a chain is the list of its entries from the head
pointer on, and `size` and `count` are stored, not computed.

The table is used with three kinds of values, so it is generic in them. The values of
the inner tables of hashes and sorted sets are strings.

`Dict.WF` is the representation invariant. Under it every operation is described by
what it does to `Dict.entries`, the concatenation of the chains, up to order
(`dictSet_spec`, `dictDel_spec`, `dictModify_spec`) and by `dictGet_eq_lookup`,
which reads a key off that list.
-/

namespace Minired

open KeyedList

/-- `DICT_INITIAL_SIZE`. -/
def DICT_INITIAL_SIZE : ℕ := 16

/-- One entry of a chain. -/
structure DictEntry (α : Type) where
  key : Bytes
  val : α

/-- The table: an array of chains, its size, and the number of entries. -/
structure Dict (α : Type) where
  buckets : List (List (DictEntry α))
  size : ℕ
  count : ℕ

variable {α σ : Type}

/-- The constructor `Dict::Dict`. -/
def dictNew : Dict α where
  buckets := List.replicate DICT_INITIAL_SIZE []
  size := DICT_INITIAL_SIZE
  count := 0

/-- FNV-1a over 64-bit words. -/
def dictHash (key : Bytes) : UInt64 :=
  key.foldl (fun hash b => (hash ^^^ b.toUInt64) * 1099511628211) 14695981039346656037

/-- The bucket of a key in a table of `size` buckets: `hash & (size - 1)`. -/
def bucketOf (size : ℕ) (key : Bytes) : ℕ := (dictHash key).toNat &&& (size - 1)

/-- Move one entry to the head of its chain in the new array. -/
def relink (newSize : ℕ) (newBuckets : List (List (DictEntry α))) (e : DictEntry α) :
    List (List (DictEntry α)) :=
  newBuckets.modify (bucketOf newSize e.key) (e :: ·)

/-- `dict_resize`: relink every entry, bucket by bucket and along each chain. -/
def dictResize (d : Dict α) (newSize : ℕ) : Dict α where
  buckets := d.buckets.foldl (fun nb chain => chain.foldl (relink newSize) nb)
    (List.replicate newSize [])
  size := newSize
  count := d.count

/-- Walk a chain to the first entry of `key` and change its value; `none` when the walk
reaches the end. -/
def chainModify (key : Bytes) (f : α → α) : List (DictEntry α) → Option (List (DictEntry α))
  | [] => none
  | e :: es =>
    if e.key = key then some ({ e with val := f e.val } :: es)
    else (chainModify key f es).map (e :: ·)

/-- `dict_set`. The load test `(double)count / size > 0.75` comes first, also when the key
is present; `size` is a power of two, so the quotient is exact. -/
def dictSet (d : Dict α) (key : Bytes) (val : α) : Dict α :=
  let d := if 3 * d.size < 4 * d.count then dictResize d (d.size * 2) else d
  let idx := bucketOf d.size key
  match chainModify key (fun _ => val) (d.buckets.getD idx []) with
  | some chain => { d with buckets := d.buckets.modify idx (fun _ => chain) }
  | none =>
    { d with buckets := d.buckets.modify idx (⟨key, val⟩ :: ·), count := d.count + 1 }

/-- `dict_get`. -/
def dictGet (d : Dict α) (key : Bytes) : Option α :=
  ((d.buckets.getD (bucketOf d.size key) []).find? (fun e => e.key = key)).map (·.val)

/-- `dict_del`: unlink the first entry of the key. -/
def dictDel (d : Dict α) (key : Bytes) : Dict α × Bool :=
  let idx := bucketOf d.size key
  if (d.buckets.getD idx []).any (fun e => e.key = key) then
    ({ d with
        buckets := d.buckets.modify idx (List.eraseP fun e => e.key = key)
        count := d.count - 1 }, true)
  else (d, false)

/-- `dict_size`. -/
def dictSize (d : Dict α) : ℕ := d.count

/-- A write through the pointer that `dict_get` returned: the value changes in place. -/
def dictModify (d : Dict α) (key : Bytes) (f : α → α) : Dict α :=
  let idx := bucketOf d.size key
  match chainModify key f (d.buckets.getD idx []) with
  | some chain => { d with buckets := d.buckets.modify idx (fun _ => chain) }
  | none => d

/-- The inner loop of `dict_each`; the flag says whether the callback asked to go on. -/
def chainEach (fn : σ → Bytes → α → σ × Bool) : σ → List (DictEntry α) → σ × Bool
  | ud, [] => (ud, true)
  | ud, e :: es =>
    match fn ud e.key e.val with
    | (ud', true) => chainEach fn ud' es
    | (ud', false) => (ud', false)

/-- The outer loop of `dict_each`. -/
def bucketsEach (fn : σ → Bytes → α → σ × Bool) : σ → List (List (DictEntry α)) → σ × Bool
  | ud, [] => (ud, true)
  | ud, chain :: chains =>
    match chainEach fn ud chain with
    | (ud', true) => bucketsEach fn ud' chains
    | (ud', false) => (ud', false)

/-- `dict_each`: call `fn` on the entries in bucket order until it returns false. -/
def dictEach (d : Dict α) (fn : σ → Bytes → α → σ × Bool) (ud : σ) : σ :=
  (bucketsEach fn ud d.buckets).1

/-- All entries, in the order `dict_each` visits them. -/
def Dict.entries (d : Dict α) : List (DictEntry α) := d.buckets.flatten

/-- The representation invariant of the table. -/
structure Dict.WF (d : Dict α) : Prop where
  /-- The bucket array has `size` buckets. -/
  length_eq : d.buckets.length = d.size
  /-- The size is a power of two, and at least the initial one. -/
  pow : ∃ n, 4 ≤ n ∧ d.size = 2 ^ n
  /-- Every entry lies in the bucket of its key. -/
  placed : Placed DictEntry.key (bucketOf d.size) d.buckets
  /-- No two entries have equal keys. -/
  nodup : NodupKeys DictEntry.key d.entries
  /-- `count` is the number of entries. -/
  count_eq : d.count = d.entries.length
  /-- The load factor is exceeded by at most one entry. -/
  load : 4 * d.count ≤ 3 * d.size + 4

/-! ### Chains and the order of visits -/

/-- A visit of two chains goes on into the second unless the callback has stopped it. -/
theorem chainEach_append (fn : σ → Bytes → α → σ × Bool) (ud : σ) (es es' : List (DictEntry α)) :
    chainEach fn ud (es ++ es') =
      match chainEach fn ud es with
      | (ud', true) => chainEach fn ud' es'
      | (ud', false) => (ud', false) := by
  induction es generalizing ud with
  | nil => rfl
  | cons e es ih =>
    rw [List.cons_append, chainEach, chainEach]
    rcases fn ud e.key e.val with ⟨ud', _ | _⟩
    · rfl
    · exact ih ud'

/-- The two loops of `dict_each` are one walk over all entries. -/
theorem dictEach_eq (d : Dict α) (fn : σ → Bytes → α → σ × Bool) (ud : σ) :
    dictEach d fn ud = (chainEach fn ud d.entries).1 := by
  unfold dictEach Dict.entries
  congr 1
  induction d.buckets generalizing ud with
  | nil => rfl
  | cons chain chains ih =>
    rw [bucketsEach, List.flatten_cons, chainEach_append]
    rcases chainEach fn ud chain with ⟨ud', _ | _⟩
    · rfl
    · exact ih ud'

/-- A callback that never stops the walk is folded over all entries. -/
theorem dictEach_of_always (d : Dict α) {fn : σ → Bytes → α → σ × Bool}
    (hfn : ∀ ud k v, (fn ud k v).2 = true) (ud : σ) :
    dictEach d fn ud = d.entries.foldl (fun ud e => (fn ud e.key e.val).1) ud := by
  rw [dictEach_eq]
  induction d.entries generalizing ud with
  | nil => rfl
  | cons e es ih =>
    rw [chainEach, List.foldl_cons, ← ih]
    have h := hfn ud e.key e.val
    rcases hr : fn ud e.key e.val with ⟨ud', b⟩
    rw [hr] at h
    subst h
    rfl

/-- The walk of `dict_set` finds nothing where there is no entry of the key. -/
theorem chainModify_eq_none {key : Bytes} {f : α → α} {es : List (DictEntry α)} :
    chainModify key f es = none ↔ lookup DictEntry.key key es = none := by
  rw [lookup_eq_none]
  induction es with
  | nil => simp [chainModify]
  | cons e es ih =>
    rw [chainModify]
    by_cases hk : e.key = key
    · simp [hk]
    · simp [hk, ih]

/-- A successful walk changes the entries of the key, of which there is one. -/
theorem chainModify_eq_some {key : Bytes} {f : α → α} {es es' : List (DictEntry α)}
    (hnd : NodupKeys DictEntry.key es) (h : chainModify key f es = some es') :
    es' = es.map (fun e => if e.key = key then { e with val := f e.val } else e) := by
  induction es generalizing es' with
  | nil => simp [chainModify] at h
  | cons e es ih =>
    obtain ⟨hne, htail⟩ := hnd.of_cons
    rw [chainModify] at h
    by_cases hk : e.key = key
    · rw [if_pos hk] at h
      obtain rfl := Option.some.inj h
      -- the keys behind the first match are other keys
      have hrest : es.map (fun e => if e.key = key then { e with val := f e.val } else e)
          = es.map id := by
        exact List.map_congr_left fun e' he' => if_neg fun hk' => hne e' he' (hk'.trans hk.symm)
      rw [List.map_cons, if_pos hk, hrest, List.map_id]
    · rw [if_neg hk, Option.map_eq_some_iff] at h
      obtain ⟨es'', hes'', rfl⟩ := h
      rw [List.map_cons, if_neg hk, ← ih htail hes'']

/-! ### The fresh table -/

/-- A new table has no entries. -/
theorem entries_dictNew : (dictNew : Dict α).entries = [] := by
  simp [Dict.entries, dictNew]

/-- It is well formed. -/
theorem wf_dictNew : (dictNew : Dict α).WF where
  length_eq := by simp [dictNew]
  pow := ⟨4, le_refl 4, rfl⟩
  placed := placed_replicate_nil _ _
  nodup := by rw [entries_dictNew]; exact NodupKeys.nil
  count_eq := by rw [entries_dictNew]; rfl
  load := by simp [dictNew]

/-! ### Resizing -/

/-- The mask of a power of two stays below it. -/
theorem bucketOf_lt {size n : ℕ} (hs : size = 2 ^ n) (key : Bytes) : bucketOf size key < size := by
  subst hs
  rw [bucketOf, Nat.and_two_pow_sub_one_eq_mod]
  exact Nat.mod_lt _ (Nat.two_pow_pos n)

/-- Every key has a bucket. -/
theorem Dict.WF.bucket_lt {d : Dict α} (hd : d.WF) (key : Bytes) :
    bucketOf d.size key < d.buckets.length := by
  obtain ⟨n, -, hsize⟩ := hd.pow
  exact hd.length_eq ▸ bucketOf_lt hsize key

/-- Relinking a list of entries keeps the array well placed and adds the entries to it. -/
theorem foldl_relink {newSize n : ℕ} (hs : newSize = 2 ^ n) (es : List (DictEntry α))
    {nb : List (List (DictEntry α))} (hlen : nb.length = newSize)
    (hpl : Placed DictEntry.key (bucketOf newSize) nb) :
    (es.foldl (relink newSize) nb).length = newSize ∧
      Placed DictEntry.key (bucketOf newSize) (es.foldl (relink newSize) nb) ∧
      (es.foldl (relink newSize) nb).flatten.Perm (es ++ nb.flatten) := by
  induction es generalizing nb with
  | nil => exact ⟨hlen, hpl, List.Perm.refl _⟩
  | cons e es ih =>
    have hi : bucketOf newSize e.key < nb.length := hlen ▸ bucketOf_lt hs e.key
    -- linking one entry keeps the array well placed
    have hlen' : (relink newSize nb e).length = newSize := by simpa [relink] using hlen
    have hpl' : Placed DictEntry.key (bucketOf newSize) (relink newSize nb e) := by
      refine hpl.modify hi fun e' he' => ?_
      rcases List.mem_cons.mp he' with rfl | hmem
      · rfl
      · exact hpl _ _ hmem
    obtain ⟨h1, h2, h3⟩ := ih hlen' hpl'
    refine ⟨h1, h2, h3.trans ?_⟩
    -- the order changes, as each entry is pushed in front of its bucket
    exact ((flatten_modify_cons_perm hi e).append_left es).trans List.perm_middle

/-- **Resizing.** The new array is well placed and holds the same entries. -/
theorem dictResize_spec (d : Dict α) {newSize n : ℕ} (hs : newSize = 2 ^ n) :
    (dictResize d newSize).buckets.length = newSize ∧
      Placed DictEntry.key (bucketOf newSize) (dictResize d newSize).buckets ∧
      (dictResize d newSize).entries.Perm d.entries := by
  -- the two loops go through the entries bucket by bucket
  have hfold : (dictResize d newSize).buckets =
      d.entries.foldl (relink newSize) (List.replicate newSize []) := by
    rw [Dict.entries, List.foldl_flatten]
    rfl
  obtain ⟨h1, h2, h3⟩ := foldl_relink hs d.entries (List.length_replicate ..)
    (placed_replicate_nil _ _)
  rw [← hfold] at h1 h2 h3
  refine ⟨h1, h2, ?_⟩
  simpa [Dict.entries] using h3

/-- The load test in front of an insertion: it makes room and keeps the entries. -/
theorem dictSet_resize {d : Dict α} (hd : d.WF) {d' : Dict α}
    (h : d' = if 3 * d.size < 4 * d.count then dictResize d (d.size * 2) else d) :
    d'.WF ∧ 4 * d'.count ≤ 3 * d'.size ∧ d'.entries.Perm d.entries := by
  obtain ⟨n, hn, hsize⟩ := hd.pow
  by_cases hload : 3 * d.size < 4 * d.count
  · rw [if_pos hload] at h
    subst h
    -- doubling leaves more room than the one insertion that is to come takes
    have hs : d.size * 2 = 2 ^ (n + 1) := by rw [hsize, pow_succ]
    obtain ⟨h1, h2, h3⟩ := dictResize_spec d hs
    have hpos : 2 ^ 4 ≤ d.size := hsize ▸ Nat.pow_le_pow_right (by decide) hn
    have hroom : 4 * d.count ≤ 3 * (d.size * 2) := by
      have := hd.load
      omega
    exact ⟨⟨h1, ⟨n + 1, by omega, hs⟩, h2, hd.nodup.perm h3.symm,
      hd.count_eq.trans h3.length_eq.symm, le_trans hroom (Nat.le_add_right _ 4)⟩, hroom, h3⟩
  · rw [if_neg hload] at h
    subst h
    exact ⟨hd, not_lt.mp hload, List.Perm.refl _⟩

/-! ### What each operation does to the entries -/

/-- **A lookup** looks the key up among all entries. -/
theorem dictGet_eq_lookup {d : Dict α} (hd : d.WF) (key : Bytes) :
    dictGet d key = (lookup DictEntry.key key d.entries).map (·.val) := by
  rw [dictGet, Dict.entries, ← hd.placed.lookup_flatten hd.nodup key, lookup]

/-- A present key is one whose entry is in the table. -/
theorem dictGet_eq_some_iff {d : Dict α} (hd : d.WF) {key : Bytes} {val : α} :
    dictGet d key = some val ↔ ⟨key, val⟩ ∈ d.entries := by
  rw [dictGet_eq_lookup hd, Option.map_eq_some_iff]
  constructor
  · rintro ⟨e, he, rfl⟩
    obtain ⟨hmem, rfl⟩ := of_lookup_eq_some he
    exact hmem
  · intro hmem
    exact ⟨⟨key, val⟩, hd.nodup.lookup_eq_some_iff.mpr ⟨hmem, rfl⟩, rfl⟩

/-- Nothing is found where no entry has the key. -/
theorem dictGet_eq_none_iff {d : Dict α} (hd : d.WF) {key : Bytes} :
    dictGet d key = none ↔ ∀ e ∈ d.entries, e.key ≠ key := by
  rw [dictGet_eq_lookup hd, Option.map_eq_none_iff, lookup_eq_none]

section Modify

variable {d : Dict α} (hd : d.WF) {key : Bytes} {f : α → α} {chain : List (DictEntry α)}
  (h : chainModify key f (d.buckets.getD (bucketOf d.size key) []) = some chain)

include hd h

/-- Writing the changed chain back changes the entries of the key, in place. -/
theorem entries_modify_chain :
    (d.buckets.modify (bucketOf d.size key) (fun _ => chain)).flatten =
      d.entries.map (fun e => if e.key = key then { e with val := f e.val } else e) := by
  have hlt := hd.bucket_lt key
  -- on its own bucket the walk is a map over all entries, which leaves the other buckets alone
  have hchain := chainModify_eq_some (hd.nodup.bucket _) h
  have hmod : d.buckets.modify (bucketOf d.size key) (fun _ => chain) =
      d.buckets.modify (bucketOf d.size key)
        (List.map fun e => if e.key = key then { e with val := f e.val } else e) :=
    modify_congr hlt hchain
  rw [hmod, Dict.entries]
  refine hd.placed.flatten_modify hlt (fun _ _ => List.map_append) fun es hes => ?_
  exact List.map_congr_left (fun e he => if_neg (hes e he)) |>.trans (List.map_id es)

/-- The entry of the key, and its new value, up to order. -/
theorem entries_modify_chain_perm :
    ∃ v, dictGet d key = some v ∧
      (d.buckets.modify (bucketOf d.size key) (fun _ => chain)).flatten.Perm
        (⟨key, f v⟩ :: without DictEntry.key key d.entries) := by
  -- the walk ended at the entry of the key
  have hlook : lookup DictEntry.key key d.entries ≠ none := by
    rw [Dict.entries, ← hd.placed.lookup_flatten hd.nodup key, Ne,
      ← chainModify_eq_none (f := f), h]
    exact Option.some_ne_none chain
  obtain ⟨e, he⟩ := Option.ne_none_iff_exists'.mp hlook
  obtain ⟨hmem, rfl⟩ := of_lookup_eq_some he
  refine ⟨e.val, (dictGet_eq_some_iff hd).mpr hmem, ?_⟩
  rw [entries_modify_chain hd h]
  have hmap := hd.nodup.map_perm (f := fun e' => if e'.key = e.key
    then { e' with val := f e'.val } else e') hmem (fun e' _ hne => if_neg hne)
  rwa [if_pos rfl] at hmap

/-- Writing the changed chain back keeps the invariant. -/
theorem wf_modify_chain :
    ({ d with
      buckets := d.buckets.modify (bucketOf d.size key) (fun _ => chain) } : Dict α).WF := by
  have hlt := hd.bucket_lt key
  have hentries := entries_modify_chain hd h
  -- no key changes, so placement, distinctness and count are as they were
  have hkeys : (d.entries.map (fun e => if e.key = key then { e with val := f e.val } else e)).map
      DictEntry.key = d.entries.map DictEntry.key := by
    rw [List.map_map]
    refine List.map_congr_left fun e _ => ?_
    by_cases hk : e.key = key <;> simp [hk]
  refine ⟨by simp [hd.length_eq], hd.pow, hd.placed.modify hlt fun e he => ?_, ?_, ?_, hd.load⟩
  · -- an entry of the bucket comes from one with its key
    rw [chainModify_eq_some (hd.nodup.bucket _) h] at he
    obtain ⟨e', he', rfl⟩ := List.mem_map.mp he
    have hidx := hd.placed _ e' he'
    by_cases hk : e'.key = key
    · rw [if_pos hk]
      exact hidx
    · rw [if_neg hk]
      exact hidx
  · show NodupKeys DictEntry.key (d.buckets.modify _ _).flatten
    rw [hentries, NodupKeys, hkeys]
    exact hd.nodup
  · show d.count = (d.buckets.modify _ _).flatten.length
    rw [hentries, List.length_map, hd.count_eq]

end Modify

/-- **`dict_set`** keeps the invariant and replaces whatever the key had. -/
theorem dictSet_spec {d : Dict α} (hd : d.WF) (key : Bytes) (val : α) :
    (dictSet d key val).WF ∧
      (dictSet d key val).entries.Perm (⟨key, val⟩ :: without DictEntry.key key d.entries) := by
  obtain ⟨d', hd'⟩ : ∃ d', d' = if 3 * d.size < 4 * d.count then dictResize d (d.size * 2) else d :=
    ⟨_, rfl⟩
  obtain ⟨hwf, hroom, hperm⟩ := dictSet_resize hd hd'
  have hdrop : (without DictEntry.key key d'.entries).Perm (without DictEntry.key key d.entries) :=
    hperm.filter _
  rw [dictSet, ← hd']
  cases hm : chainModify key (fun _ => val) (d'.buckets.getD (bucketOf d'.size key) []) with
  | some chain =>
    -- the key is there, and its entry is changed in place
    obtain ⟨v, -, hentries⟩ := entries_modify_chain_perm hwf hm
    exact ⟨wf_modify_chain hwf hm, hentries.trans (hdrop.cons _)⟩
  | none =>
    -- the key is new, and its entry is pushed onto its bucket
    have hlt := hwf.bucket_lt key
    have hnone : lookup DictEntry.key key d'.entries = none := by
      rw [Dict.entries, ← hwf.placed.lookup_flatten hwf.nodup key]
      exact chainModify_eq_none.mp hm
    have hne := lookup_eq_none.mp hnone
    have hnew : (d'.buckets.modify (bucketOf d'.size key) (⟨key, val⟩ :: ·)).flatten.Perm
        (⟨key, val⟩ :: d'.entries) := flatten_modify_cons_perm hlt _
    refine ⟨⟨by simpa using hwf.length_eq, hwf.pow, hwf.placed.modify hlt fun e he => ?_,
      (hwf.nodup.cons hne).perm hnew.symm, ?_, ?_⟩, ?_⟩
    · rcases List.mem_cons.mp he with rfl | hmem
      · rfl
      · exact hwf.placed _ e hmem
    · show d'.count + 1 = (d'.buckets.modify _ _).flatten.length
      rw [hnew.length_eq, List.length_cons, hwf.count_eq]
    · show 4 * (d'.count + 1) ≤ 3 * d'.size + 4
      omega
    · rw [← without_of_forall_ne hne] at hnew
      exact hnew.trans (hdrop.cons _)

/-- **`dict_del`** keeps the invariant, drops the key and tells whether it was there. -/
theorem dictDel_spec {d : Dict α} (hd : d.WF) (key : Bytes) :
    (dictDel d key).1.WF ∧
      (dictDel d key).1.entries = without DictEntry.key key d.entries ∧
      (dictDel d key).2 = (dictGet d key).isSome := by
  have hlt := hd.bucket_lt key
  have hfind : (dictGet d key).isSome =
      (d.buckets.getD (bucketOf d.size key) []).any (fun e => e.key = key) := by
    rw [dictGet, Option.isSome_map, Bool.eq_iff_iff, List.find?_isSome, List.any_eq_true]
  rw [dictDel]
  rw [← hfind]
  cases hg : dictGet d key with
  | none =>
    -- no entry has the key, and the walk ends at the end of the bucket
    have hne := (dictGet_eq_none_iff hd).mp hg
    exact ⟨hd, (without_of_forall_ne hne).symm, rfl⟩
  | some v =>
    have hmem := (dictGet_eq_some_iff hd).mp hg
    have hflat : (d.buckets.modify (bucketOf d.size key)
        (List.eraseP fun e => e.key = key)).flatten = without DictEntry.key key d.entries := by
      -- erasing the first entry of the key erases its only one
      have hmod : d.buckets.modify (bucketOf d.size key) (List.eraseP fun e => e.key = key) =
          d.buckets.modify (bucketOf d.size key) (without DictEntry.key key) :=
        modify_congr hlt ((hd.nodup.bucket _).eraseP_eq_without key)
      rw [hmod]
      exact hd.placed.flatten_modify hlt (fun _ _ => List.filter_append ..)
        fun _ hes => without_of_forall_ne hes
    have hlen := hd.nodup.length_without hmem
    rw [Option.isSome_some, if_pos rfl]
    refine ⟨⟨by simpa using hd.length_eq, hd.pow, hd.placed.modify hlt fun e he => ?_,
      ?_, ?_, ?_⟩, hflat, rfl⟩
    · exact hd.placed _ e (List.mem_of_mem_eraseP he)
    · show NodupKeys DictEntry.key (d.buckets.modify _ _).flatten
      rw [hflat]
      exact hd.nodup.without key
    · -- `count` was not zero, so the subtraction does not stop early
      show d.count - 1 = (d.buckets.modify _ _).flatten.length
      rw [hflat, hd.count_eq, ← hlen]
      rfl
    · have := hd.load
      show 4 * (d.count - 1) ≤ 3 * d.size + 4
      omega

/-- **A write through a looked-up pointer** keeps the invariant and changes one value. -/
theorem dictModify_spec {d : Dict α} (hd : d.WF) (key : Bytes) (f : α → α) :
    (dictModify d key f).WF ∧
      (dictModify d key f).entries =
        d.entries.map (fun e => if e.key = key then { e with val := f e.val } else e) := by
  rw [dictModify]
  cases hm : chainModify key f (d.buckets.getD (bucketOf d.size key) []) with
  | some chain => exact ⟨wf_modify_chain hd hm, entries_modify_chain hd hm⟩
  | none =>
    have hnone : lookup DictEntry.key key d.entries = none := by
      rw [Dict.entries, ← hd.placed.lookup_flatten hd.nodup key]
      exact chainModify_eq_none.mp hm
    -- no entry has the key, so the map leaves each one as it is
    have hid : d.entries.map (fun e => if e.key = key then { e with val := f e.val } else e) =
        d.entries.map id :=
      List.map_congr_left fun e he => if_neg (lookup_eq_none.mp hnone e he)
    exact ⟨hd, by rw [hid, List.map_id]⟩

/-! ### The finite map -/

/-- `dict_set` keeps a table well formed. -/
theorem wf_dictSet {d : Dict α} (hd : d.WF) (key : Bytes) (val : α) : (dictSet d key val).WF :=
  (dictSet_spec hd key val).1

/-- So does `dict_del`. -/
theorem wf_dictDel {d : Dict α} (hd : d.WF) (key : Bytes) : (dictDel d key).1.WF :=
  (dictDel_spec hd key).1

/-- So does a change of one object. -/
theorem wf_dictModify {d : Dict α} (hd : d.WF) (key : Bytes) (f : α → α) :
    (dictModify d key f).WF :=
  (dictModify_spec hd key f).1

/-- Nothing is found in a new table. -/
theorem dictGet_dictNew : dictGet (dictNew : Dict α) = fun _ => none := by
  funext key
  rw [dictGet_eq_none_iff wf_dictNew, entries_dictNew]
  exact fun _ h => absurd h List.not_mem_nil

/-- `dict_set` updates the map at its key. -/
theorem dictGet_dictSet {d : Dict α} (hd : d.WF) (key : Bytes) (val : α) :
    dictGet (dictSet d key val) = Function.update (dictGet d) key (some val) := by
  obtain ⟨hwf, hperm⟩ := dictSet_spec hd key val
  funext k
  apply Option.ext
  intro v
  rw [dictGet_eq_some_iff hwf, hperm.mem_iff, List.mem_cons, mem_without]
  by_cases hk : k = key
  · subst hk
    simp [eq_comm]
  · rw [Function.update_of_ne hk, dictGet_eq_some_iff hd]
    simp [hk]

/-- `dict_del` clears the map at its key. -/
theorem dictGet_dictDel {d : Dict α} (hd : d.WF) (key : Bytes) :
    dictGet (dictDel d key).1 = Function.update (dictGet d) key none := by
  obtain ⟨hwf, hentries, -⟩ := dictDel_spec hd key
  funext k
  apply Option.ext
  intro v
  rw [dictGet_eq_some_iff hwf, hentries, mem_without]
  by_cases hk : k = key
  · subst hk
    simp
  · rw [Function.update_of_ne hk, dictGet_eq_some_iff hd]
    simp [hk]

/-- A write through a pointer maps the value at its key. -/
theorem dictGet_dictModify {d : Dict α} (hd : d.WF) (key : Bytes) (f : α → α) :
    dictGet (dictModify d key f) = Function.update (dictGet d) key ((dictGet d key).map f) := by
  obtain ⟨hwf, hentries⟩ := dictModify_spec hd key f
  funext k
  apply Option.ext
  intro v
  rw [dictGet_eq_some_iff hwf, hentries, List.mem_map]
  by_cases hk : k = key
  · subst hk
    rw [Function.update_self, Option.map_eq_some_iff]
    constructor
    · rintro ⟨e, he, heq⟩
      -- an entry of the key comes from an entry of the key
      by_cases hke : e.key = k
      · subst hke
        rw [if_pos rfl, DictEntry.mk.injEq] at heq
        exact ⟨e.val, (dictGet_eq_some_iff hd).mpr he, heq.2⟩
      · rw [if_neg hke] at heq
        exact absurd (by rw [heq]) hke
    · rintro ⟨w, hw, rfl⟩
      exact ⟨⟨k, w⟩, (dictGet_eq_some_iff hd).mp hw, by simp⟩
  · rw [Function.update_of_ne hk, dictGet_eq_some_iff hd]
    constructor
    · rintro ⟨e, he, heq⟩
      by_cases hke : e.key = key
      · -- the changed entry has the changed key, which is not the one that was asked for
        rw [if_pos hke, DictEntry.mk.injEq] at heq
        exact absurd (heq.1.symm.trans hke) hk
      · rw [if_neg hke] at heq
        exact heq ▸ he
    · intro hmem
      exact ⟨⟨k, v⟩, hmem, by simp [hk]⟩

/-- What has been stored is found. -/
theorem dictGet_dictSet_self {d : Dict α} (hd : d.WF) (key : Bytes) (val : α) :
    dictGet (dictSet d key val) key = some val := by
  rw [dictGet_dictSet hd, Function.update_self]

/-- A change is seen under its own key. -/
theorem dictGet_dictModify_self {d : Dict α} (hd : d.WF) (key : Bytes) (f : α → α) :
    dictGet (dictModify d key f) key = (dictGet d key).map f := by
  rw [dictGet_dictModify hd, Function.update_self]

end Minired
