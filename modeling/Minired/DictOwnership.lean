import Minired.DictPointers

/-!
# The hash table owns its memory

`DictPtr.Repr p t others` says that the cells behind `p` are the table `t`, and that the allocated
cells are exactly the bucket array, three for each entry of `t`, and those that the caller holds.
The entries of `t` carry the addresses of their cells (`Resident`), so `t` is a table in the sense
of `Minired.Dict` and the operations on it are the ones defined there. Each operation on the
pointers does to `t` what the operation of the same name does, and the addresses are dropped at the
end (`Dict.mapVal`): `dict_owns_memory` is about any calls on a fresh table.

That the addresses are part of `t` also says which of them stay: an operation on one key moves the
object of no other, also when the table is resized in between (`dict_pointer_stable`).
-/

namespace Minired

open KeyedList Shape Transducer

variable {α β σ : Type}

/-- The walk of `dict_set` at the first entry of the key. -/
theorem chainModify_of_middle {key : Bytes} {f : α → α} {front back : List (DictEntry α)}
    {e : DictEntry α} (hne : ∀ e ∈ front, e.key ≠ key) (hk : e.key = key) :
    chainModify key f (front ++ e :: back) = some (front ++ ⟨key, f e.val⟩ :: back) := by
  induction front with
  | nil => rw [List.nil_append, chainModify, if_pos hk, hk, List.nil_append]
  | cons e' front ih =>
    rw [List.cons_append, chainModify, if_neg (hne e' List.mem_cons_self),
      ih fun e he => hne e (List.mem_cons_of_mem _ he)]
    rfl

/-! ### Tables with other values -/

/-- The entry with another value. -/
def DictEntry.mapVal (f : α → β) (e : DictEntry α) : DictEntry β := ⟨e.key, f e.val⟩

/-- The key stays. -/
@[simp] theorem DictEntry.key_mapVal (f : α → β) (e : DictEntry α) : (e.mapVal f).key = e.key := rfl

/-- The table with other values in its entries. -/
def Dict.mapVal (f : α → β) (d : Dict α) : Dict β where
  buckets := d.buckets.map (List.map (DictEntry.mapVal f))
  size := d.size
  count := d.count

/-- The part of `dict_set` behind the load test. -/
def dictInsert (d : Dict α) (key : Bytes) (val : α) : Dict α :=
  let idx := bucketOf d.size key
  match chainModify key (fun _ => val) (d.buckets.getD idx []) with
  | some chain => { d with buckets := d.buckets.modify idx (fun _ => chain) }
  | none =>
    { d with buckets := d.buckets.modify idx (⟨key, val⟩ :: ·), count := d.count + 1 }

/-- `dict_set` is the load test and what comes behind it. -/
theorem dictSet_eq (d : Dict α) (key : Bytes) (val : α) :
    dictSet d key val =
      dictInsert (if 3 * d.size < 4 * d.count then dictResize d (d.size * 2) else d) key val := rfl

section MapVal

variable (f : α → β)

/-- The chain of a bucket, with other values. -/
theorem getD_map_mapVal (bs : List (List (DictEntry α))) (i : ℕ) :
    (bs.map (List.map (DictEntry.mapVal f))).getD i [] =
      (bs.getD i []).map (DictEntry.mapVal f) := by
  rw [List.getD_eq_getElem?_getD, List.getD_eq_getElem?_getD, List.getElem?_map]
  cases bs[i]? <;> rfl

/-- A change of one bucket can be made on either side. -/
theorem modify_mapVal {F : List (DictEntry α) → List (DictEntry α)}
    {G : List (DictEntry β) → List (DictEntry β)}
    (hFG : ∀ es, (F es).map (DictEntry.mapVal f) = G (es.map (DictEntry.mapVal f)))
    (bs : List (List (DictEntry α))) (i : ℕ) :
    (bs.modify i F).map (List.map (DictEntry.mapVal f)) =
      (bs.map (List.map (DictEntry.mapVal f))).modify i G := by
  refine List.ext_getElem? fun j => ?_
  simp only [List.getElem?_map, List.getElem?_modify]
  cases bs[j]? with
  | none => rfl
  | some es =>
    by_cases hij : i = j
    · simp [hij, hFG]
    · simp [hij]

/-- A new table has no values. -/
theorem dictNew_mapVal : (dictNew : Dict α).mapVal f = dictNew := by
  simp [Dict.mapVal, dictNew]

/-- The entries, with other values. -/
theorem entries_mapVal (d : Dict α) :
    (d.mapVal f).entries = d.entries.map (DictEntry.mapVal f) := by
  rw [Dict.entries, Dict.entries, Dict.mapVal, List.map_flatten]

/-- Moving entries looks at their keys only. -/
theorem foldl_relink_mapVal (newSize : ℕ) (es : List (DictEntry α))
    (nb : List (List (DictEntry α))) :
    (es.foldl (relink newSize) nb).map (List.map (DictEntry.mapVal f)) =
      (es.map (DictEntry.mapVal f)).foldl (relink newSize)
        (nb.map (List.map (DictEntry.mapVal f))) := by
  induction es generalizing nb with
  | nil => rfl
  | cons e es ih =>
    have hrelink : (relink newSize nb e).map (List.map (DictEntry.mapVal f)) =
        relink newSize (nb.map (List.map (DictEntry.mapVal f))) (e.mapVal f) :=
      modify_mapVal f (fun _ => List.map_cons) nb _
    rw [List.map_cons, List.foldl_cons, List.foldl_cons, ih, hrelink]

/-- The two loops of `dict_resize` are one walk over all entries. -/
theorem buckets_dictResize (d : Dict α) (newSize : ℕ) :
    (dictResize d newSize).buckets =
      d.entries.foldl (relink newSize) (List.replicate newSize []) := by
  rw [Dict.entries, List.foldl_flatten]
  rfl

/-- So does a resize. -/
theorem dictResize_mapVal (d : Dict α) (newSize : ℕ) :
    (dictResize d newSize).mapVal f = dictResize (d.mapVal f) newSize := by
  have hbuckets : (dictResize d newSize).buckets.map (List.map (DictEntry.mapVal f)) =
      (dictResize (d.mapVal f) newSize).buckets := by
    rw [buckets_dictResize, buckets_dictResize, foldl_relink_mapVal, entries_mapVal,
      List.map_replicate, List.map_nil]
  rw [Dict.mapVal, hbuckets]
  rfl

/-- So does the walk of `dict_set` along a chain. -/
theorem chainModify_mapVal (key : Bytes) (val : α) (es : List (DictEntry α)) :
    (chainModify key (fun _ => val) es).map (List.map (DictEntry.mapVal f)) =
      chainModify key (fun _ => f val) (es.map (DictEntry.mapVal f)) := by
  induction es with
  | nil => rfl
  | cons e es ih =>
    rw [List.map_cons, chainModify, chainModify, ← ih, DictEntry.key_mapVal]
    by_cases hk : e.key = key
    · rw [if_pos hk, if_pos hk]
      rfl
    · rw [if_neg hk, if_neg hk, Option.map_map, Option.map_map]
      rfl

/-- An insertion of the value on one side is one of its image on the other. -/
theorem dictInsert_mapVal (d : Dict α) (key : Bytes) (val : α) :
    (dictInsert d key val).mapVal f = dictInsert (d.mapVal f) key (f val) := by
  have hchain := chainModify_mapVal f key val (d.buckets.getD (bucketOf d.size key) [])
  rw [← getD_map_mapVal] at hchain
  rw [dictInsert, dictInsert]
  cases hm : chainModify key (fun _ => val) (d.buckets.getD (bucketOf d.size key) []) with
  | some chain =>
    rw [hm] at hchain
    rw [Dict.mapVal, Dict.mapVal, ← hchain]
    exact congrArg (Dict.mk · d.size d.count) (modify_mapVal f (fun _ => rfl) _ _)
  | none =>
    rw [hm] at hchain
    rw [Dict.mapVal, Dict.mapVal, ← hchain]
    exact congrArg (Dict.mk · d.size (d.count + 1)) (modify_mapVal f (fun _ => List.map_cons) _ _)

/-- So is `dict_set`. -/
theorem dictSet_mapVal (d : Dict α) (key : Bytes) (val : α) :
    (dictSet d key val).mapVal f = dictSet (d.mapVal f) key (f val) := by
  rw [dictSet_eq, dictSet_eq, dictInsert_mapVal, apply_ite (Dict.mapVal f), dictResize_mapVal]
  rfl

/-- A lookup finds the image. -/
theorem dictGet_mapVal (d : Dict α) (key : Bytes) :
    dictGet (d.mapVal f) key = (dictGet d key).map f := by
  rw [dictGet, dictGet, Dict.mapVal, getD_map_mapVal, List.find?_map, Option.map_map,
    Option.map_map]
  rfl

/-- A deletion takes out the same entry. -/
theorem dictDel_mapVal (d : Dict α) (key : Bytes) :
    dictDel (d.mapVal f) key = ((dictDel d key).1.mapVal f, (dictDel d key).2) := by
  have herase : ∀ es : List (DictEntry α),
      (es.eraseP fun e => e.key = key).map (DictEntry.mapVal f) =
        (es.map (DictEntry.mapVal f)).eraseP fun e => e.key = key := fun es => by
    rw [List.eraseP_map]
    rfl
  have hany : ((d.mapVal f).buckets.getD (bucketOf d.size key) []).any (fun e => e.key = key) =
      (d.buckets.getD (bucketOf d.size key) []).any (fun e => e.key = key) := by
    rw [Dict.mapVal, getD_map_mapVal, List.any_map]
    rfl
  rw [dictDel, dictDel, show (d.mapVal f).size = d.size from rfl, hany]
  cases (d.buckets.getD (bucketOf d.size key) []).any (fun e => e.key = key) with
  | true => rw [if_pos rfl, if_pos rfl, Dict.mapVal, Dict.mapVal, modify_mapVal f herase]
  | false => rfl

/-- A visit sees the images. -/
theorem dictEach_mapVal (d : Dict α) (fn : σ → Bytes → β → σ × Bool) (ud : σ) :
    dictEach (d.mapVal f) fn ud = dictEach d (fun ud key val => fn ud key (f val)) ud := by
  rw [dictEach_eq, dictEach_eq, entries_mapVal]
  congr 1
  induction d.entries generalizing ud with
  | nil => rfl
  | cons e es ih =>
    rw [List.map_cons, chainEach, chainEach]
    rcases hfn : fn ud (e.mapVal f).key (e.mapVal f).val with ⟨ud', _ | _⟩
    · rw [show fn ud e.key (f e.val) = (ud', false) from hfn]
    · rw [show fn ud e.key (f e.val) = (ud', true) from hfn]
      exact ih ud'

end MapVal

/-! ### The layout -/

/-- An object of the table, and the cells that its entry, its key and the object live in. -/
structure Resident (α : Type) where
  val : α
  entry : Addr
  key : Addr
  obj : Addr

/-- An entry is a cell that points to its key, to its object and to the next entry. -/
def residentShape (α : Type) : Shape (DictCell α) (DictEntry (Resident α)) where
  addr e := e.val.entry
  cells e := [e.val.entry, e.val.key, e.val.obj]
  Holds m e p :=
    m e.val.entry = some (.entry ⟨e.val.key, e.val.obj, p⟩) ∧
      m e.val.key = some (.str e.key) ∧ m e.val.obj = some (.obj e.val.val)
  frame := by
    rintro m m' e p ⟨hentry, hkey, hobj⟩ heq
    rw [heq _ (by simp), heq _ (by simp), heq _ (by simp)]
    exact ⟨hentry, hkey, hobj⟩

/-- The cells of some entries. -/
abbrev cellsOf (es : List (DictEntry (Resident α))) : List Addr := (residentShape α).owned es

/-- The entries are linked from `p` on, up to the pointer `q`. -/
abbrev EntrySeg (h : Heap (DictCell α)) (p : Option Addr) (es : List (DictEntry (Resident α)))
    (q : Option Addr) : Prop := (residentShape α).Seg h.cell p es q

/-- No entries, no cells. -/
theorem cellsOf_nil : cellsOf ([] : List (DictEntry (Resident α))) = [] := rfl

/-- Three cells for the first entry. -/
theorem cellsOf_cons (e : DictEntry (Resident α)) (es : List (DictEntry (Resident α))) :
    cellsOf (e :: es) = e.val.entry :: e.val.key :: e.val.obj :: cellsOf es := rfl

/-- The cells of two lists of entries. -/
theorem cellsOf_append (es es' : List (DictEntry (Resident α))) :
    cellsOf (es ++ es') = cellsOf es ++ cellsOf es' := owned_append

/-- The bucket array at an address, with its chains. -/
def TableAt (h : Heap (DictCell α)) (table : Addr)
    (chains : List (List (DictEntry (Resident α)))) : Prop :=
  ∃ heads, h.cell table = some (.table heads) ∧ (residentShape α).Chains h.cell heads chains

/-- What the pointers lead to, and that nothing else is allocated but what the caller holds. -/
structure DictPtr.Repr (p : DictPtr α) (t : Dict (Resident α)) (others : List Addr) : Prop where
  size_eq : p.size = t.size
  count_eq : p.count = t.count
  owns : p.heap.Owns (p.buckets :: (cellsOf t.entries ++ others))
  table : TableAt p.heap p.buckets t.buckets

section Cells

variable {h : Heap (DictCell α)} {a : Addr}

/-- Reading the bucket array. -/
theorem derefTable_eq {buckets : List (Option Addr)} (ha : h.cell a = some (.table buckets)) :
    derefTable h a = some buckets := by rw [derefTable, ha]

/-- Reading an entry. -/
theorem derefEntry_eq {e : EntryCell} (ha : h.cell a = some (.entry e)) :
    derefEntry h a = some e := by rw [derefEntry, ha]

/-- Reading a key. -/
theorem derefStr_eq {s : Bytes} (ha : h.cell a = some (.str s)) : derefStr h a = some s := by
  rw [derefStr, ha]

/-- Reading an object. -/
theorem derefObj_eq {o : α} (ha : h.cell a = some (.obj o)) : derefObj h a = some o := by
  rw [derefObj, ha]

/-- Reading a bucket. -/
theorem loadSlot_eq {buckets : List (Option Addr)} (ha : h.cell a = some (.table buckets)) {i : ℕ}
    {p : Option Addr} (hi : buckets[i]? = some p) : loadSlot h a i = some p := by
  rw [loadSlot, derefTable_eq ha]
  exact hi

/-- Writing a bucket. -/
theorem storeSlot_eq {buckets : List (Option Addr)} (ha : h.cell a = some (.table buckets)) {i : ℕ}
    (hi : i < buckets.length) (p : Option Addr) :
    storeSlot h a i p = some (h.put a (.table (buckets.set i p))) := by
  rw [storeSlot, derefTable_eq ha, Option.bind_eq_bind, Option.bind_some, if_pos hi]
  exact Heap.store_eq ha

/-- Writing the `next` of an entry. -/
theorem storeNext_eq {e : EntryCell} (ha : h.cell a = some (.entry e)) (p : Option Addr) :
    storeNext h a p = some (h.put a (.entry { e with next := p })) := by
  rw [storeNext, derefEntry_eq ha]
  exact Heap.store_eq ha

/-- Freeing the bucket array. -/
theorem freeTable_eq {buckets : List (Option Addr)} (ha : h.cell a = some (.table buckets)) :
    freeTable h a = some (h.drop a) := by
  rw [freeTable, derefTable_eq ha]
  exact Heap.free_eq ha

/-- Freeing an entry. -/
theorem freeEntry_eq {e : EntryCell} (ha : h.cell a = some (.entry e)) :
    freeEntry h a = some (h.drop a) := by
  rw [freeEntry, derefEntry_eq ha]
  exact Heap.free_eq ha

/-- Freeing a key. -/
theorem freeStr_eq {s : Bytes} (ha : h.cell a = some (.str s)) :
    freeStr h a = some (h.drop a) := by
  rw [freeStr, derefStr_eq ha]
  exact Heap.free_eq ha

/-- Freeing an object. -/
theorem freeObj_eq {o : α} (ha : h.cell a = some (.obj o)) : freeObj h a = some (h.drop a) := by
  rw [freeObj, derefObj_eq ha]
  exact Heap.free_eq ha

end Cells

/-! ### Walking a chain -/

section Walks

variable {h : Heap (DictCell α)} {p : Option Addr} {es : List (DictEntry (Resident α))} {fuel : ℕ}

/-- The first entry of a chain, and where it leads. -/
theorem EntrySeg.of_cons {e : DictEntry (Resident α)} {q : Option Addr}
    (hes : EntrySeg h p (e :: es) q) :
    p = some e.val.entry ∧ ∃ next, EntrySeg h next es q ∧
      h.cell e.val.entry = some (.entry ⟨e.val.key, e.val.obj, next⟩) ∧
      h.cell e.val.key = some (.str e.key) ∧ h.cell e.val.obj = some (.obj e.val.val) := by
  obtain ⟨hp, next, hcells, hrest⟩ := Seg.cons_iff.mp hes
  exact ⟨hp, next, hrest, hcells⟩

/-- An entry inside a chain, and the entries on its two sides. -/
theorem EntrySeg.of_middle {front back : List (DictEntry (Resident α))}
    {e : DictEntry (Resident α)} {q : Option Addr} (hes : EntrySeg h p (front ++ e :: back) q) :
    EntrySeg h p front (some e.val.entry) ∧ ∃ next, EntrySeg h next back q ∧
      h.cell e.val.entry = some (.entry ⟨e.val.key, e.val.obj, next⟩) ∧
      h.cell e.val.key = some (.str e.key) ∧ h.cell e.val.obj = some (.obj e.val.val) := by
  obtain ⟨r, hfront, hback⟩ := Seg.append_iff.mp hes
  obtain ⟨rfl, hcells⟩ := EntrySeg.of_cons hback
  exact ⟨hfront, hcells⟩

/-- The walk ends at the first entry of the key. -/
theorem findEntry_eq (key : Bytes) (hes : EntrySeg h p es none) (hfuel : es.length ≤ fuel) :
    findEntry h key fuel p = some ((es.find? fun e => e.key = key).map fun e => e.val.entry) := by
  induction es generalizing p fuel with
  | nil =>
    obtain rfl := Seg.nil_iff.mp hes
    cases fuel <;> rfl
  | cons e es ih =>
    obtain ⟨rfl, next, hrest, hentry, hkey, -⟩ := hes.of_cons
    obtain _ | fuel := fuel
    · exact absurd hfuel (by simp)
    rw [findEntry, derefEntry_eq hentry, Option.bind_eq_bind, Option.bind_some, derefStr_eq hkey,
      Option.bind_eq_bind, Option.bind_some]
    by_cases hk : e.key = key
    · -- the walk stops here
      rw [if_pos hk, List.find?_cons_of_pos (by simpa using hk)]
      rfl
    · -- it follows `next`
      rw [if_neg hk, List.find?_cons_of_neg (by simpa using hk)]
      exact ih hrest (Nat.le_of_succ_le_succ hfuel)

/-- The pointer that leads to what comes behind some entries. -/
def linkAfter (prev : DictLink) (es : List (DictEntry (Resident α))) : DictLink :=
  es.getLast?.elim prev fun e => .next e.val.entry

/-- The walk of a deletion ends there, too, with the pointer behind the entries in front. -/
theorem findLink_eq_none {key : Bytes} {prev : DictLink} (hes : EntrySeg h p es none)
    (hfuel : es.length ≤ fuel) (hne : ∀ e ∈ es, e.key ≠ key) :
    findLink h key fuel prev p = some none := by
  induction es generalizing p fuel prev with
  | nil =>
    obtain rfl := Seg.nil_iff.mp hes
    cases fuel <;> rfl
  | cons e es ih =>
    obtain ⟨rfl, next, hrest, hentry, hkey, -⟩ := hes.of_cons
    obtain _ | fuel := fuel
    · exact absurd hfuel (by simp)
    rw [findLink, derefEntry_eq hentry, Option.bind_eq_bind, Option.bind_some, derefStr_eq hkey,
      Option.bind_eq_bind, Option.bind_some, if_neg (hne e List.mem_cons_self)]
    exact ih hrest (Nat.le_of_succ_le_succ hfuel) fun e he => hne e (List.mem_cons_of_mem _ he)

/-- The walk stops at the pointer to the first entry of the key. -/
theorem findLink_eq_some {key : Bytes} {prev : DictLink}
    {front back : List (DictEntry (Resident α))} {e : DictEntry (Resident α)}
    (hes : EntrySeg h p (front ++ e :: back) none)
    (hfuel : (front ++ e :: back).length ≤ fuel) (hne : ∀ e ∈ front, e.key ≠ key)
    (hk : e.key = key) :
    findLink h key fuel prev p = some (some (linkAfter prev front, e.val.entry)) := by
  induction front generalizing p fuel prev with
  | nil =>
    obtain ⟨rfl, next, -, hentry, hkey, -⟩ := hes.of_cons
    obtain _ | fuel := fuel
    · exact absurd hfuel (by simp)
    rw [findLink, derefEntry_eq hentry, Option.bind_eq_bind, Option.bind_some, derefStr_eq hkey,
      Option.bind_eq_bind, Option.bind_some, if_pos hk]
    rfl
  | cons f front ih =>
    obtain ⟨rfl, next, hrest, hentry, hkey, -⟩ := hes.of_cons
    obtain _ | fuel := fuel
    · exact absurd hfuel (by simp)
    -- from here on `prev` is the `next` of this entry
    have hlast : linkAfter prev (f :: front) = linkAfter (.next f.val.entry) front := by
      cases front <;> rfl
    rw [findLink, derefEntry_eq hentry, Option.bind_eq_bind, Option.bind_some, derefStr_eq hkey,
      Option.bind_eq_bind, Option.bind_some, if_neg (hne f List.mem_cons_self), hlast]
    exact ih hrest (Nat.le_of_succ_le_succ hfuel) fun e he => hne e (List.mem_cons_of_mem _ he)

end Walks

/-! ### Linking an entry into a chain -/

section Link

variable {h h' : Heap (DictCell α)} {p : Option Addr} {heads : List (Option Addr)}
  {chains : List (List (DictEntry (Resident α)))} {i : ℕ}

/-- The cells of one chain are cells of the table. -/
theorem mem_cellsOf_getD (hi : i < chains.length) {a : Addr}
    (ha : a ∈ cellsOf (chains.getD i [])) : a ∈ cellsOf chains.flatten := by
  rw [(owned_perm (flatten_perm_getD hi)).mem_iff, owned_append]
  exact List.mem_append_left _ ha

/-- So are those of the other chains. -/
theorem mem_cellsOf_eraseIdx (hi : i < chains.length) {a : Addr}
    (ha : a ∈ cellsOf (chains.eraseIdx i).flatten) : a ∈ cellsOf chains.flatten := by
  rw [(owned_perm (flatten_perm_getD hi)).mem_iff, owned_append]
  exact List.mem_append_right _ ha

/-- `e->next = buckets[i]; buckets[i] = e` puts an entry in front of a chain. -/
theorem TableAt.push (hc : (residentShape α).Chains h.cell heads chains) (hi : i < chains.length)
    (hp : heads[i]? = some p) {table : Addr} {e : DictEntry (Resident α)}
    (hkeep : ∀ a ∈ cellsOf chains.flatten, h'.cell a = h.cell a)
    (htable : h'.cell table = some (.table (heads.set i (some e.val.entry))))
    (he : (residentShape α).Holds h'.cell e p) :
    TableAt h' table (chains.modify i (e :: ·)) := by
  refine ⟨_, htable, ?_⟩
  have hmod : chains.modify i (e :: ·) = chains.modify i (fun _ => e :: chains.getD i []) :=
    modify_congr hi rfl
  rw [hmod]
  exact hc.update (fun a ha => hkeep a (mem_cellsOf_eraseIdx hi ha))
    (.cons he ((hc.seg hp).frame fun a ha => hkeep a (mem_cellsOf_getD hi ha)))

end Link

/-! ### `dict_resize` -/

section Resize

variable {h : Heap (DictCell α)} {newBuckets : Addr} {newSize n fuel : ℕ}
  {nb : List (List (DictEntry (Resident α)))}

/-- The cells of a new array after one entry was relinked. -/
theorem cellsOf_relink (hs : newSize = 2 ^ n) (hlen : nb.length = newSize)
    (e : DictEntry (Resident α)) :
    (cellsOf (relink newSize nb e).flatten).Perm (cellsOf (e :: nb.flatten)) :=
  owned_perm (flatten_modify_cons_perm (hlen ▸ bucketOf_lt hs e.key) e)

/-- Moving entries keeps the number of buckets. -/
theorem length_foldl_relink (es : List (DictEntry (Resident α))) :
    (es.foldl (relink newSize) nb).length = nb.length := by
  induction es generalizing nb with
  | nil => rfl
  | cons e es ih => rw [List.foldl_cons, ih, relink, List.length_modify]

/-- Relinking a chain moves its entries to the new array, and touches nothing else. -/
theorem relinkChain_spec (hs : newSize = 2 ^ n) {es : List (DictEntry (Resident α))}
    {p : Option Addr} {rest : List Addr} (hlen : nb.length = newSize)
    (hown : h.Owns (newBuckets :: (cellsOf nb.flatten ++ (cellsOf es ++ rest))))
    (hnew : TableAt h newBuckets nb) (hes : EntrySeg h p es none) (hfuel : es.length ≤ fuel) :
    ∃ h', relinkChain newBuckets newSize fuel p h = some h' ∧
      h'.Owns (newBuckets :: (cellsOf (es.foldl (relink newSize) nb).flatten ++ rest)) ∧
      TableAt h' newBuckets (es.foldl (relink newSize) nb) ∧
      ∀ a ∈ rest, h'.cell a = h.cell a := by
  induction es generalizing nb h p fuel with
  | nil =>
    obtain rfl := Seg.nil_iff.mp hes
    refine ⟨h, by cases fuel <;> rfl, ?_, hnew, fun _ _ => rfl⟩
    simpa using hown
  | cons e es ih =>
    obtain _ | fuel := fuel
    · exact absurd hfuel (by simp)
    obtain ⟨rfl, next, hrest, hentry, hkey, hobj⟩ := hes.of_cons
    obtain ⟨heads, htable, hchains⟩ := hnew
    have hi : bucketOf newSize e.key < nb.length := hlen ▸ bucketOf_lt hs e.key
    have hi' : bucketOf newSize e.key < heads.length := hchains.length_eq ▸ hi
    obtain ⟨head, hhead⟩ : ∃ head, heads[bucketOf newSize e.key]? = some head :=
      ⟨_, List.getElem?_eq_getElem hi'⟩
    -- the two cells that are written are none of the others
    have hsplit : (newBuckets :: (cellsOf nb.flatten ++ (cellsOf (e :: es) ++ rest))).Perm
        (e.val.entry :: newBuckets ::
          (e.val.key :: e.val.obj :: (cellsOf nb.flatten ++ (cellsOf es ++ rest)))) := by
      rw [List.perm_iff_count]
      intro a
      simp only [cellsOf_cons, List.cons_append, List.count_cons, List.count_append]
      ring
    have hown' := hown.perm hsplit
    obtain ⟨hentry_ne, hnd⟩ := List.nodup_cons.mp hown'.nodup
    obtain ⟨hnew_ne, -⟩ := List.nodup_cons.mp hnd
    have hne : newBuckets ≠ e.val.entry := fun heq => hentry_ne (heq ▸ List.mem_cons_self)
    obtain ⟨h₁, hh₁⟩ : ∃ h₁, h₁ = h.put e.val.entry (.entry ⟨e.val.key, e.val.obj, head⟩) :=
      ⟨_, rfl⟩
    obtain ⟨h₂, hh₂⟩ : ∃ h₂, h₂ = h₁.put newBuckets
        (.table (heads.set (bucketOf newSize e.key) (some e.val.entry))) := ⟨_, rfl⟩
    have htable₁ : h₁.cell newBuckets = some (.table heads) := by
      rw [hh₁, Heap.cell_put_of_ne hne, htable]
    have hkeep : ∀ a ∈ e.val.key :: e.val.obj :: (cellsOf nb.flatten ++ (cellsOf es ++ rest)),
        h₂.cell a = h.cell a := fun a ha => by
      rw [hh₂, Heap.cell_put_of_ne (ne_of_mem_of_not_mem ha hnew_ne), hh₁,
        Heap.cell_put_of_ne (ne_of_mem_of_not_mem (List.mem_cons_of_mem _ ha) hentry_ne)]
    -- one iteration: `e->next = new_buckets[i]`, and then `new_buckets[i] = e`
    have hrun : relinkChain newBuckets newSize (fuel + 1) (some e.val.entry) h =
        relinkChain newBuckets newSize fuel next h₂ := by
      simp only [relinkChain, derefEntry_eq hentry, derefStr_eq hkey, loadSlot_eq htable hhead,
        storeNext_eq hentry, ← hh₁, storeSlot_eq htable₁ hi', ← hh₂, Option.bind_eq_bind,
        Option.bind_some]
    -- the entry is in front of its new chain
    have hnew₂ : TableAt h₂ newBuckets (relink newSize nb e) := by
      refine TableAt.push hchains hi hhead (fun a ha => hkeep a (by simp [ha]))
        (by rw [hh₂, Heap.cell_put_self]) ⟨?_, ?_, ?_⟩
      · rw [hh₂, Heap.cell_put_of_ne hne.symm, hh₁, Heap.cell_put_self]
      · rw [hkeep _ (by simp), hkey]
      · rw [hkeep _ (by simp), hobj]
    -- and its cells have changed hands, from the old chain to the new array
    have hown₂ : h₂.Owns (newBuckets :: (cellsOf (relink newSize nb e).flatten ++
        (cellsOf es ++ rest))) := by
      rw [hh₂, hh₁]
      refine ((hown'.put (by simp) _).put (by simp) _).perm (hsplit.symm.trans ?_)
      refine List.Perm.cons _ (List.Perm.trans ?_ ((cellsOf_relink hs hlen e).symm.append_right _))
      rw [List.perm_iff_count]
      intro a
      simp only [cellsOf_cons, List.cons_append, List.count_cons, List.count_append]
      ring
    obtain ⟨h', hrun', hown', hnew', hkeep'⟩ :=
      ih ((length_foldl_relink [e]).trans hlen) hown₂ hnew₂
      (hrest.frame fun a ha => hkeep a (by simp [ha])) (Nat.le_of_succ_le_succ hfuel)
    refine ⟨h', hrun.trans hrun', hown', hnew', fun a ha => ?_⟩
    rw [hkeep' a ha, hkeep a (by simp [ha])]

/-- Relinking all buckets empties the old array into the new one. -/
theorem relinkBuckets_spec (hs : newSize = 2 ^ n) {buckets : Addr} {heads : List (Option Addr)}
    {chains : List (List (DictEntry (Resident α)))} {i : ℕ} {others : List Addr}
    (hlen : nb.length = newSize)
    (hown : h.Owns
      (newBuckets :: (cellsOf nb.flatten ++ (cellsOf chains.flatten ++ buckets :: others))))
    (hnew : TableAt h newBuckets nb) (hold : h.cell buckets = some (.table heads))
    (hchains : (residentShape α).Chains h.cell (heads.drop i) chains)
    (hfuel : ∀ chain ∈ chains, chain.length ≤ fuel) :
    ∃ h', relinkBuckets buckets newBuckets newSize fuel chains.length i h = some h' ∧
      h'.Owns (newBuckets :: (cellsOf (chains.flatten.foldl (relink newSize) nb).flatten ++
        buckets :: others)) ∧
      TableAt h' newBuckets (chains.flatten.foldl (relink newSize) nb) ∧
      h'.cell buckets = some (.table heads) ∧ ∀ a ∈ others, h'.cell a = h.cell a := by
  induction chains generalizing nb h i with
  | nil => exact ⟨h, rfl, by simpa using hown, hnew, hold, fun _ _ => rfl⟩
  | cons chain chains ih =>
    obtain ⟨head, hslot, hhead, htail⟩ := hchains.of_cons
    -- the chain of this bucket, while the others wait
    rw [List.flatten_cons, cellsOf_append, List.append_assoc] at hown
    obtain ⟨h₁, hrun₁, hown₁, hnew₁, hkeep₁⟩ := relinkChain_spec hs hlen hown hnew hhead
      (hfuel chain List.mem_cons_self)
    have hlen₁ : (chain.foldl (relink newSize) nb).length = newSize :=
      (length_foldl_relink chain).trans hlen
    obtain ⟨h', hrun', hown', hnew', hold', hkeep'⟩ := ih hlen₁ hown₁ hnew₁
      ((hkeep₁ buckets (by simp)).trans hold)
      (Chains.frame htail fun a ha => hkeep₁ a (List.mem_append_left _ ha))
      fun c hc => hfuel c (List.mem_cons_of_mem _ hc)
    refine ⟨h', ?_, ?_, ?_, hold', fun a ha => ?_⟩
    · rw [List.length_cons, relinkBuckets, loadSlot_eq hold hslot, Option.bind_eq_bind,
        Option.bind_some, hrun₁]
      exact hrun'
    · rwa [List.flatten_cons, List.foldl_append]
    · rwa [List.flatten_cons, List.foldl_append]
    · rw [hkeep' a ha, hkeep₁ a (by simp [ha])]

end Resize

namespace DictPtr.Repr

variable {p : DictPtr α} {t : Dict (Resident α)} {others : List Addr} {val : α} {v : Addr}

/-- No chain is longer than the count. -/
theorem chain_le (hp : p.Repr t others) (ht : t.WF) {chain : List (DictEntry (Resident α))}
    (hchain : chain ∈ t.buckets) : chain.length ≤ p.count := by
  rw [hp.count_eq, ht.count_eq]
  exact (List.sublist_flatten_of_mem hchain).length_le

/-- **`dict_resize`** relinks the entries where they are, and frees the old array. -/
theorem resize (hp : p.Repr t others) (ht : t.WF) {newSize n : ℕ} (hs : newSize = 2 ^ n) :
    ∃ p', p.resize newSize = some p' ∧ p'.Repr (dictResize t newSize) others ∧
      ∀ a ∈ others, p'.heap.cell a = p.heap.cell a := by
  obtain ⟨heads, htable, hchains⟩ := hp.table
  -- the new array is empty, and everything else is where it was
  obtain ⟨h₀, hh₀⟩ : ∃ h₀, h₀ = (p.heap.alloc (.table (List.replicate newSize none))).1 := ⟨_, rfl⟩
  have hold : ∀ a ∈ p.buckets :: (cellsOf t.entries ++ others), h₀.cell a = p.heap.cell a :=
    fun a ha => hh₀ ▸ Heap.cell_alloc_of_ne (ne_of_mem_of_not_mem ha hp.owns.brk_notMem)
  have hown₀ : h₀.Owns (p.heap.brk ::
      (cellsOf (List.replicate newSize ([] : List (DictEntry (Resident α)))).flatten ++
        (cellsOf t.buckets.flatten ++ p.buckets :: others))) := by
    rw [List.flatten_replicate_nil, hh₀]
    exact (hp.owns.alloc _).perm (List.Perm.cons _ List.perm_middle.symm)
  obtain ⟨h₁, hrun₁, hown₁, ⟨heads', htable', hchains'⟩, hold₁, hkeep₁⟩ :=
    relinkBuckets_spec hs List.length_replicate hown₀
      ⟨_, hh₀ ▸ Heap.cell_alloc_self, Chains.replicate _ _⟩ ((hold _ (by simp)).trans htable)
      (i := 0) (Chains.frame hchains fun a ha => hold a (by simp [Dict.entries, ha]))
      fun chain hchain => hp.chain_le ht hchain
  rw [← Dict.entries, ← buckets_dictResize] at hown₁ hchains'
  -- the old array has lost its chains, and is freed
  have hdrop := hown₁.perm (List.Perm.trans (List.Perm.cons _ List.perm_middle)
    (List.Perm.swap p.buckets _ _))
  have hne := (List.nodup_cons.mp hdrop.nodup).1
  have hnew : p.heap.brk ≠ p.buckets := fun heq => hne (heq ▸ List.mem_cons_self)
  have hlen : t.buckets.length = p.size := ht.length_eq.trans hp.size_eq.symm
  have hrun : p.resize newSize = some
      ⟨h₁.drop p.buckets, p.heap.brk, newSize, p.count⟩ := by
    rw [DictPtr.resize, ← hlen]
    simp only [← hh₀]
    rw [show (p.heap.alloc (.table (List.replicate newSize none))).2 = p.heap.brk from rfl, hrun₁,
      Option.bind_eq_bind, Option.bind_some, freeTable_eq hold₁]
    rfl
  refine ⟨_, hrun, ⟨rfl, hp.count_eq, hdrop.drop, heads', ?_, ?_⟩, fun a ha => ?_⟩
  · rw [Heap.cell_drop_of_ne hnew, htable']
  · refine hchains'.frame fun a ha => Heap.cell_drop_of_ne (ne_of_mem_of_not_mem ?_ hne)
    exact List.mem_cons_of_mem _ (List.mem_append_left _ ha)
  · have hmem : a ∈ p.heap.brk :: (cellsOf (dictResize t newSize).entries ++ others) :=
      List.mem_cons_of_mem _ (List.mem_append_right _ ha)
    rw [Heap.cell_drop_of_ne (ne_of_mem_of_not_mem hmem hne), hkeep₁ a ha, hold a (by simp [ha])]

/-- The bucket of a key, and its chain. -/
theorem bucket (hp : p.Repr t others) (ht : t.WF) (key : Bytes) :
    ∃ heads head, p.heap.cell p.buckets = some (.table heads) ∧
      heads[bucketOf t.size key]? = some head ∧
      (residentShape α).Chains p.heap.cell heads t.buckets ∧
      EntrySeg p.heap head (t.buckets.getD (bucketOf t.size key) []) none ∧
      (t.buckets.getD (bucketOf t.size key) []).length ≤ p.count := by
  obtain ⟨heads, htable, hchains⟩ := hp.table
  have hlt := ht.bucket_lt key
  have hlt' : bucketOf t.size key < heads.length := hchains.length_eq ▸ hlt
  refine ⟨heads, _, htable, List.getElem?_eq_getElem hlt', hchains,
    hchains.seg (List.getElem?_eq_getElem hlt'), hp.chain_le ht ?_⟩
  rw [List.getD_eq_getElem _ _ hlt]
  exact List.getElem_mem hlt

/-- The cells of the table, one chain in front. -/
theorem owns_bucket (hp : p.Repr t others) {i : ℕ} (hi : i < t.buckets.length) :
    p.heap.Owns (p.buckets :: (cellsOf (t.buckets.getD i []) ++
      (cellsOf (t.buckets.eraseIdx i).flatten ++ others))) := by
  refine hp.owns.perm (List.Perm.cons _ ?_)
  rw [← List.append_assoc, ← cellsOf_append]
  exact (owned_perm (flatten_perm_getD hi)).append_right others

/-- **`dict_get`** returns the pointer to the object of the entry. -/
theorem get (hp : p.Repr t others) (ht : t.WF) (key : Bytes) :
    p.get key = some ((dictGet t key).map Resident.obj) := by
  obtain ⟨heads, head, htable, hhead, -, hseg, hlen⟩ := hp.bucket ht key
  rw [DictPtr.get, hp.size_eq, loadSlot_eq htable hhead, Option.bind_eq_bind, Option.bind_some,
    findEntry_eq key hseg hlen, dictGet, Option.bind_eq_bind, Option.bind_some, Option.map_map]
  cases hfind : (t.buckets.getD (bucketOf t.size key) []).find? (fun e => e.key = key) with
  | none => rfl
  | some e =>
    -- the entry that was found is in the chain, so it can be read
    obtain ⟨-, front, back, hsplit, -⟩ := List.find?_eq_some_iff_append.mp hfind
    rw [hsplit] at hseg
    obtain ⟨-, _, -, hentry, -⟩ := hseg.of_middle
    simp only [Option.map_some, derefEntry_eq hentry, Option.bind_some]
    rfl

/-- The entry of a present key gets the caller's object in place of its own, which is freed. -/
theorem insert_present (hp : p.Repr t (v :: others)) (ht : t.WF) {key : Bytes}
    (hv : p.heap.cell v = some (.obj val)) {e : DictEntry (Resident α)}
    (hfind : (t.buckets.getD (bucketOf t.size key) []).find? (fun e => e.key = key) = some e) :
    ∃ p' r, p.insert key v = some p' ∧ r.val = val ∧ r.obj = v ∧
      p'.Repr (dictInsert t key r) others ∧ ∀ a ∈ others, p'.heap.cell a = p.heap.cell a := by
  obtain ⟨heads, head, htable, hhead, hchains, hseg, hlen⟩ := hp.bucket ht key
  have hlt := ht.bucket_lt key
  have hown := hp.owns_bucket hlt
  obtain ⟨hk, front, back, hsplit, hfront⟩ := List.find?_eq_some_iff_append.mp hfind
  have hk : e.key = key := by simpa using hk
  obtain ⟨hseg₁, next, hseg₂, hentry, hkey, hobj⟩ := (hsplit ▸ hseg).of_middle
  rw [hsplit] at hown
  -- the cells that change are none of the others
  have hown' : p.heap.Owns (e.val.obj :: e.val.entry :: p.buckets :: e.val.key :: v ::
      (cellsOf (front ++ back) ++
        (cellsOf (t.buckets.eraseIdx (bucketOf t.size key)).flatten ++ others))) := by
    refine hown.perm (List.perm_iff_count.mpr fun a => ?_)
    simp only [cellsOf_cons, cellsOf_append, List.count_cons, List.count_append]
    ring
  obtain ⟨hobj_ne, hnd⟩ := List.nodup_cons.mp hown'.nodup
  obtain ⟨hentry_ne, -⟩ := List.nodup_cons.mp hnd
  obtain ⟨h₁, hh₁⟩ : ∃ h₁, h₁ = p.heap.drop e.val.obj := ⟨_, rfl⟩
  obtain ⟨h₂, hh₂⟩ : ∃ h₂, h₂ = h₁.put e.val.entry (.entry ⟨e.val.key, v, next⟩) := ⟨_, rfl⟩
  have hkeep : ∀ a ∈ p.buckets :: e.val.key :: v :: (cellsOf (front ++ back) ++
      (cellsOf (t.buckets.eraseIdx (bucketOf t.size key)).flatten ++ others)),
      h₂.cell a = p.heap.cell a := fun a ha => by
    rw [hh₂, Heap.cell_put_of_ne (ne_of_mem_of_not_mem ha hentry_ne), hh₁,
      Heap.cell_drop_of_ne (ne_of_mem_of_not_mem (List.mem_cons_of_mem _ ha) hobj_ne)]
  have hentry₁ : h₁.cell e.val.entry = some (.entry ⟨e.val.key, e.val.obj, next⟩) := by
    rw [hh₁, Heap.cell_drop_of_ne (ne_of_mem_of_not_mem List.mem_cons_self hobj_ne), hentry]
  -- `dict_set` deletes the old object, and stores the pointer to the new one
  have hrun : p.insert key v = some { p with heap := h₂ } := by
    rw [DictPtr.insert, hp.size_eq, loadSlot_eq htable hhead, Option.bind_eq_bind,
      Option.bind_some, findEntry_eq key hseg hlen, hfind]
    simp only [Option.map_some, Option.bind_eq_bind, Option.bind_some, derefEntry_eq hentry,
      freeObj_eq hobj, ← hh₁, Heap.store_eq hentry₁, ← hh₂]
  obtain ⟨r, hr⟩ : ∃ r : Resident α, r = ⟨val, e.val.entry, e.val.key, v⟩ := ⟨_, rfl⟩
  have hins : dictInsert t key r = { t with
      buckets := t.buckets.modify (bucketOf t.size key) fun _ => front ++ ⟨key, r⟩ :: back } := by
    rw [dictInsert, hsplit, chainModify_of_middle (fun e he => by simpa using hfront e he) hk]
  -- the chain is the same but for the object of this entry
  have hnew : EntrySeg h₂ head (front ++ ⟨key, r⟩ :: back) none := by
    refine Seg.append_iff.mpr ⟨some e.val.entry, hseg₁.frame fun a ha => hkeep a ?_, ?_⟩
    · simp [ha]
    refine Seg.cons_iff.mpr ⟨by rw [hr]; rfl, next, ⟨?_, ?_, ?_⟩,
      hseg₂.frame fun a ha => hkeep a ?_⟩
    · rw [hr, hh₂, Heap.cell_put_self]
    · rw [hr, hkeep _ (by simp), hkey, hk]
    · rw [hr, hkeep _ (by simp), hv]
    · simp [ha]
  refine ⟨_, r, hrun, hr ▸ rfl, hr ▸ rfl, ?_, fun a ha => hkeep a (by simp [ha])⟩
  rw [hins]
  refine ⟨hp.size_eq, hp.count_eq, ?_, heads, (hkeep _ (by simp)).trans htable, ?_⟩
  · -- the object of the entry is gone, and the caller's is in its place
    rw [hh₂, hh₁]
    refine (hown'.drop.put List.mem_cons_self _).perm ?_
    rw [Dict.entries]
    refine List.Perm.trans ?_ (List.Perm.cons _
      ((owned_perm (flatten_modify_perm _ hlt)).symm.append_right others))
    rw [List.perm_iff_count, hr]
    intro a
    simp only [cellsOf_cons, cellsOf_append, List.count_cons, List.count_append]
    ring
  · exact hchains.replace hhead (fun a ha => hkeep a (by simp [ha])) hnew

/-- An absent key gets an entry in front of its chain, with a copy of the key. -/
theorem insert_absent (hp : p.Repr t (v :: others)) (ht : t.WF) {key : Bytes}
    (hv : p.heap.cell v = some (.obj val))
    (hfind : (t.buckets.getD (bucketOf t.size key) []).find? (fun e => e.key = key) = none) :
    ∃ p' r, p.insert key v = some p' ∧ r.val = val ∧ r.obj = v ∧
      p'.Repr (dictInsert t key r) others ∧ ∀ a ∈ others, p'.heap.cell a = p.heap.cell a := by
  obtain ⟨heads, head, htable, hhead, hchains, hseg, hlen⟩ := hp.bucket ht key
  have hlt := ht.bucket_lt key
  -- the heaps behind `malloc`, `sds_new`, the writes to the entry, and that to the bucket
  obtain ⟨h₁, hh₁⟩ : ∃ h₁, h₁ = (p.heap.alloc .raw).1 := ⟨_, rfl⟩
  obtain ⟨h₂, hh₂⟩ : ∃ h₂, h₂ = (h₁.alloc (.str key)).1 := ⟨_, rfl⟩
  obtain ⟨h₃, hh₃⟩ : ∃ h₃, h₃ = h₂.put p.heap.brk (.entry ⟨h₁.brk, v, head⟩) := ⟨_, rfl⟩
  obtain ⟨h₄, hh₄⟩ : ∃ h₄, h₄ = h₃.put p.buckets
    (.table (heads.set (bucketOf t.size key) (some p.heap.brk))) := ⟨_, rfl⟩
  have hown₂ : h₂.Owns (h₁.brk :: p.heap.brk :: p.buckets ::
      (cellsOf t.entries ++ v :: others)) := by
    rw [hh₂, hh₁]
    exact (hp.owns.alloc _).alloc _
  obtain ⟨hstr_ne, hnd⟩ := List.nodup_cons.mp hown₂.nodup
  obtain ⟨hnew_ne, hnd⟩ := List.nodup_cons.mp hnd
  obtain ⟨htable_ne, -⟩ := List.nodup_cons.mp hnd
  -- what was allocated before is in place until the bucket array is written
  have hkeep₃ : ∀ a ∈ p.buckets :: (cellsOf t.entries ++ v :: others),
      h₃.cell a = p.heap.cell a := fun a ha => by
    rw [hh₃, Heap.cell_put_of_ne (ne_of_mem_of_not_mem ha hnew_ne), hh₂, Heap.cell_alloc_of_ne
      (ne_of_mem_of_not_mem (List.mem_cons_of_mem _ ha) hstr_ne), hh₁,
      Heap.cell_alloc_of_ne (ne_of_mem_of_not_mem ha hnew_ne)]
  have hkeep : ∀ a ∈ cellsOf t.entries ++ v :: others, h₄.cell a = p.heap.cell a := fun a ha => by
    rw [hh₄, Heap.cell_put_of_ne (ne_of_mem_of_not_mem ha htable_ne),
      hkeep₃ a (List.mem_cons_of_mem _ ha)]
  have hne₁ : h₁.brk ≠ p.heap.brk := fun heq => hstr_ne (heq ▸ List.mem_cons_self)
  have hne₂ : h₁.brk ≠ p.buckets := fun heq => hstr_ne (by simp [heq])
  have hne₃ : p.heap.brk ≠ p.buckets := fun heq => hnew_ne (heq ▸ List.mem_cons_self)
  have htable₂ : h₂.cell p.buckets = some (.table heads) := by
    rw [hh₂, Heap.cell_alloc_of_ne hne₂.symm, hh₁, Heap.cell_alloc_of_ne hne₃.symm, htable]
  have hraw₂ : h₂.cell p.heap.brk = some .raw := by
    rw [hh₂, Heap.cell_alloc_of_ne hne₁.symm, hh₁, Heap.cell_alloc_self]
  have htable₃ := (hkeep₃ p.buckets List.mem_cons_self).trans htable
  have hlt' : bucketOf t.size key < heads.length := hchains.length_eq ▸ hlt
  have hrun : p.insert key v = some { p with heap := h₄, count := p.count + 1 } := by
    rw [DictPtr.insert, hp.size_eq, loadSlot_eq htable hhead, Option.bind_eq_bind,
      Option.bind_some, findEntry_eq key hseg hlen, hfind]
    simp only [Option.map_none, Option.bind_eq_bind, Option.bind_some, ← hh₁, ← hh₂]
    rw [show (p.heap.alloc (DictCell.raw : DictCell α)).2 = p.heap.brk from rfl,
      show (h₁.alloc (DictCell.str key : DictCell α)).2 = h₁.brk from rfl,
      loadSlot_eq htable₂ hhead, Option.bind_some, Heap.store_eq hraw₂, ← hh₃, Option.bind_some,
      storeSlot_eq htable₃ hlt', ← hh₄, Option.bind_some]
  obtain ⟨r, hr⟩ : ∃ r : Resident α, r = ⟨val, p.heap.brk, h₁.brk, v⟩ := ⟨_, rfl⟩
  have hins : dictInsert t key r = { t with
      buckets := t.buckets.modify (bucketOf t.size key) (⟨key, r⟩ :: ·)
      count := t.count + 1 } := by
    rw [dictInsert, chainModify_eq_none.mpr hfind]
  refine ⟨_, r, hrun, hr ▸ rfl, hr ▸ rfl, ?_, fun a ha => hkeep a (by simp [ha])⟩
  rw [hins]
  refine ⟨hp.size_eq, congrArg (· + 1) hp.count_eq, ?_, ?_⟩
  · -- the table owns two cells more, and the object that was the caller's
    rw [hh₄, hh₃]
    refine ((hown₂.put (by simp) _).put (by simp) _).perm ?_
    rw [Dict.entries]
    refine List.Perm.trans ?_ (List.Perm.cons _
      ((owned_perm (flatten_modify_cons_perm hlt _)).symm.append_right others))
    rw [List.perm_iff_count, hr]
    intro a
    rw [← Dict.entries]
    simp only [cellsOf_cons, List.cons_append, List.count_cons, List.count_append]
    ring
  · -- the new entry leads to the chain that was there
    refine TableAt.push hchains hlt hhead (fun a ha => hkeep a (List.mem_append_left _ ha))
      ?_ ⟨?_, ?_, ?_⟩
    · rw [hr, hh₄, Heap.cell_put_self]
    · rw [hr, hh₄, Heap.cell_put_of_ne hne₃, hh₃, Heap.cell_put_self]
    · rw [hr, hh₄, Heap.cell_put_of_ne hne₂, hh₃, Heap.cell_put_of_ne hne₁, hh₂,
        Heap.cell_alloc_self]
    · rw [hr, hkeep v (by simp), hv]

/-- **`dict_set`** behind the load test. -/
theorem insert (hp : p.Repr t (v :: others)) (ht : t.WF) (key : Bytes)
    (hv : p.heap.cell v = some (.obj val)) :
    ∃ p' r, p.insert key v = some p' ∧ r.val = val ∧ r.obj = v ∧
      p'.Repr (dictInsert t key r) others ∧ ∀ a ∈ others, p'.heap.cell a = p.heap.cell a := by
  cases hfind : (t.buckets.getD (bucketOf t.size key) []).find? (fun e => e.key = key) with
  | some e => exact hp.insert_present ht hv hfind
  | none => exact hp.insert_absent ht hv hfind

/-- **`dict_set`**, the load test included. -/
theorem set (hp : p.Repr t (v :: others)) (ht : t.WF) (key : Bytes)
    (hv : p.heap.cell v = some (.obj val)) :
    ∃ p' r, p.set key v = some p' ∧ r.val = val ∧ r.obj = v ∧
      p'.Repr (dictSet t key r) others ∧ ∀ a ∈ others, p'.heap.cell a = p.heap.cell a := by
  obtain ⟨hwf, -, -⟩ := dictSet_resize ht rfl
  by_cases hload : 3 * t.size < 4 * t.count
  · -- above the load factor the table is resized first
    rw [if_pos hload] at hwf
    obtain ⟨n, -, hsize⟩ := ht.pow
    have hs : t.size * 2 = 2 ^ (n + 1) := by rw [hsize, pow_succ]
    obtain ⟨p₁, hrun₁, hp₁, hkeep₁⟩ := hp.resize ht hs
    obtain ⟨p', r, hrun', hval, hobj, hp', hkeep'⟩ := hp₁.insert hwf key
      ((hkeep₁ v List.mem_cons_self).trans hv)
    refine ⟨p', r, ?_, hval, hobj, ?_, fun a ha => ?_⟩
    · rw [DictPtr.set, hp.size_eq, hp.count_eq, if_pos hload, hrun₁]
      exact hrun'
    · rwa [dictSet_eq, if_pos hload]
    · rw [hkeep' a ha, hkeep₁ a (List.mem_cons_of_mem _ ha)]
  · obtain ⟨p', r, hrun', hval, hobj, hp', hkeep'⟩ := hp.insert ht key hv
    refine ⟨p', r, ?_, hval, hobj, ?_, hkeep'⟩
    · rw [DictPtr.set, hp.size_eq, hp.count_eq, if_neg hload]
      exact hrun'
    · rwa [dictSet_eq, if_neg hload]

end DictPtr.Repr

/-! ### `dict_del` -/

/-- The three cells of an entry are given back. -/
theorem free_entry {h : Heap (DictCell α)} {e : DictEntry (Resident α)} {next : Option Addr}
    {rest : List Addr} (hown : h.Owns (e.val.key :: e.val.obj :: e.val.entry :: rest))
    (hentry : h.cell e.val.entry = some (.entry ⟨e.val.key, e.val.obj, next⟩))
    (hkey : h.cell e.val.key = some (.str e.key))
    (hobj : h.cell e.val.obj = some (.obj e.val.val)) :
    ∃ h₁ h₂ h₃, freeStr h e.val.key = some h₁ ∧ freeObj h₁ e.val.obj = some h₂ ∧
      freeEntry h₂ e.val.entry = some h₃ ∧ h₃.Owns rest ∧ ∀ a ∈ rest, h₃.cell a = h.cell a := by
  obtain ⟨hkey_ne, hnd⟩ := List.nodup_cons.mp hown.nodup
  obtain ⟨hobj_ne, hnd⟩ := List.nodup_cons.mp hnd
  obtain ⟨hentry_ne, -⟩ := List.nodup_cons.mp hnd
  have hobj₁ : (h.drop e.val.key).cell e.val.obj = some (.obj e.val.val) :=
    (Heap.cell_drop_of_ne (ne_of_mem_of_not_mem (by simp) hkey_ne)).trans hobj
  have hentry₂ : ((h.drop e.val.key).drop e.val.obj).cell e.val.entry =
      some (.entry ⟨e.val.key, e.val.obj, next⟩) := by
    rw [Heap.cell_drop_of_ne (ne_of_mem_of_not_mem List.mem_cons_self hobj_ne),
      Heap.cell_drop_of_ne (ne_of_mem_of_not_mem (by simp) hkey_ne), hentry]
  refine ⟨_, _, _, freeStr_eq hkey, freeObj_eq hobj₁, freeEntry_eq hentry₂, hown.drop.drop.drop,
    fun a ha => ?_⟩
  rw [Heap.cell_drop_of_ne (ne_of_mem_of_not_mem ha hentry_ne),
    Heap.cell_drop_of_ne (ne_of_mem_of_not_mem (by simp [ha]) hobj_ne),
    Heap.cell_drop_of_ne (ne_of_mem_of_not_mem (by simp [ha]) hkey_ne)]

/-- `*prev = e->next` takes an entry out of its chain, whether it is the first one or not. -/
theorem storeLink_spec {h : Heap (DictCell α)} {table : Addr} {heads : List (Option Addr)}
    {head next : Option Addr} {chains : List (List (DictEntry (Resident α)))} {i : ℕ}
    {front back : List (DictEntry (Resident α))} {e : DictEntry (Resident α)} {others : List Addr}
    (hown : h.Owns (table :: (cellsOf (front ++ e :: back) ++
      (cellsOf (chains.eraseIdx i).flatten ++ others))))
    (htable : h.cell table = some (.table heads)) (hhead : heads[i]? = some head)
    (hchains : (residentShape α).Chains h.cell heads chains)
    (hfront : EntrySeg h head front (some e.val.entry)) (hback : EntrySeg h next back none) :
    ∃ h', storeLink h table (linkAfter (.bucket i) front) next = some h' ∧
      h'.Owns (table :: (cellsOf (front ++ e :: back) ++
        (cellsOf (chains.eraseIdx i).flatten ++ others))) ∧
      TableAt h' table (chains.modify i fun _ => front ++ back) ∧
      ∀ a ∈ e.val.entry :: e.val.key :: e.val.obj :: others, h'.cell a = h.cell a := by
  rcases List.eq_nil_or_concat front with rfl | ⟨front, f, rfl⟩
  · -- the slot of the bucket array is written
    have hne := (List.nodup_cons.mp hown.nodup).1
    have hkeep : ∀ a ∈ cellsOf ([] ++ e :: back) ++ (cellsOf (chains.eraseIdx i).flatten ++ others),
        (h.put table (.table (heads.set i next))).cell a = h.cell a :=
      fun a ha => Heap.cell_put_of_ne (ne_of_mem_of_not_mem ha hne)
    refine ⟨_, storeSlot_eq htable (List.getElem?_eq_some_iff.mp hhead).1 next,
      hown.put List.mem_cons_self _, ⟨_, Heap.cell_put_self, ?_⟩, fun a ha => hkeep a ?_⟩
    · exact hchains.update (fun a ha => hkeep a (by simp [ha]))
        (hback.frame fun a ha => hkeep a (by simp [ha]))
    · simp only [cellsOf_append, cellsOf_cons, List.mem_append, List.mem_cons] at ha ⊢
      tauto
  · -- the entry in front is written
    rw [List.concat_eq_append] at hfront hown ⊢
    obtain ⟨hfront, next', hend, hentry, hkey, hobj⟩ := EntrySeg.of_middle hfront
    obtain rfl := Seg.nil_iff.mp hend
    have hown' : h.Owns (f.val.entry :: (table :: f.val.key :: f.val.obj ::
        (cellsOf (front ++ back) ++ (cellsOf (chains.eraseIdx i).flatten ++
          e.val.entry :: e.val.key :: e.val.obj :: others)))) := by
      refine hown.perm (List.perm_iff_count.mpr fun a => ?_)
      simp only [cellsOf_nil, cellsOf_cons, cellsOf_append, List.count_cons, List.count_append,
        List.count_nil]
      ring
    have hne := (List.nodup_cons.mp hown'.nodup).1
    have hkeep : ∀ a ∈ table :: f.val.key :: f.val.obj :: (cellsOf (front ++ back) ++
        (cellsOf (chains.eraseIdx i).flatten ++
          e.val.entry :: e.val.key :: e.val.obj :: others)),
        (h.put f.val.entry (.entry ⟨f.val.key, f.val.obj, next⟩)).cell a = h.cell a :=
      fun a ha => Heap.cell_put_of_ne (ne_of_mem_of_not_mem ha hne)
    have hlast : linkAfter (.bucket i) (front ++ [f]) = .next f.val.entry := by
      simp [linkAfter]
    refine ⟨_, by rw [hlast]; exact storeNext_eq hentry next, hown.put ?_ _,
      ⟨heads, (hkeep table List.mem_cons_self).trans htable, ?_⟩, fun a ha => hkeep a ?_⟩
    · simp only [cellsOf_append, cellsOf_cons, List.mem_cons, List.mem_append, true_or, or_true]
    · refine hchains.replace hhead (fun a ha => hkeep a (by simp [ha])) ?_
      rw [List.append_assoc]
      refine Seg.append_iff.mpr ⟨_, hfront.frame fun a ha => hkeep a (by simp [ha]), ?_⟩
      refine .cons ⟨Heap.cell_put_self, ?_, ?_⟩ (hback.frame fun a ha => hkeep a (by simp [ha]))
      · rw [hkeep _ (by simp), hkey]
      · rw [hkeep _ (by simp), hobj]
    · simp only [List.mem_cons, List.mem_append] at ha ⊢
      tauto

namespace DictPtr.Repr

variable {p : DictPtr α} {t : Dict (Resident α)} {others : List Addr}

/-- **`dict_del`** unlinks the entry of the key and frees its three cells. -/
theorem del (hp : p.Repr t others) (ht : t.WF) (key : Bytes) :
    ∃ p', p.del key = some (p', (dictDel t key).2) ∧ p'.Repr (dictDel t key).1 others ∧
      ∀ a ∈ others, p'.heap.cell a = p.heap.cell a := by
  obtain ⟨heads, head, htable, hhead, hchains, hseg, hlen⟩ := hp.bucket ht key
  have hlt := ht.bucket_lt key
  cases hfind : (t.buckets.getD (bucketOf t.size key) []).find? (fun e => e.key = key) with
  | none =>
    -- the walk comes to the end of the chain, and nothing is written
    have hne : ∀ e ∈ t.buckets.getD (bucketOf t.size key) [], e.key ≠ key := by
      simpa using List.find?_eq_none.mp hfind
    have hdel : dictDel t key = (t, false) := by
      rw [dictDel, if_neg (by simpa using hne)]
    rw [hdel]
    refine ⟨p, ?_, hp, fun _ _ => rfl⟩
    rw [DictPtr.del, hp.size_eq, loadSlot_eq htable hhead, Option.bind_eq_bind, Option.bind_some,
      findLink_eq_none hseg hlen hne, Option.bind_eq_bind, Option.bind_some]
  | some e =>
    obtain ⟨hk, front, back, hsplit, hfront⟩ := List.find?_eq_some_iff_append.mp hfind
    have hk : e.key = key := by simpa using hk
    have hfront : ∀ e ∈ front, e.key ≠ key := fun e he => by simpa using hfront e he
    have hown := hp.owns_bucket hlt
    rw [hsplit] at hown hseg hlen
    obtain ⟨hseg₁, next, hseg₂, hentry, hkey, hobj⟩ := hseg.of_middle
    -- the entry is taken out of its chain, and only then freed
    obtain ⟨h₁, hlink, hown₁, htable₁, hkeep₁⟩ :=
      storeLink_spec hown htable hhead hchains hseg₁ hseg₂
    have hdel : dictDel t key = ({ t with
        buckets := t.buckets.modify (bucketOf t.size key) fun _ => front ++ back
        count := t.count - 1 }, true) := by
      have hany : (t.buckets.getD (bucketOf t.size key) []).any (fun e => e.key = key) = true :=
        List.any_eq_true.mpr ⟨e, hsplit ▸ List.mem_append_right _ List.mem_cons_self, by simp [hk]⟩
      have herase : (t.buckets.getD (bucketOf t.size key) []).eraseP (fun e => e.key = key) =
          front ++ back := by
        rw [hsplit, List.eraseP_append_right _ (by simpa using hfront),
          List.eraseP_cons_of_pos (by simpa using hk)]
      have hmod : t.buckets.modify (bucketOf t.size key) (List.eraseP fun e => e.key = key) =
          t.buckets.modify (bucketOf t.size key) fun _ => front ++ back := modify_congr hlt herase
      rw [dictDel, if_pos hany, hmod]
    obtain ⟨heads', htable', hchains'⟩ := htable₁
    -- its three cells are no longer cells of a chain
    have hown₁' : h₁.Owns (e.val.key :: e.val.obj :: e.val.entry :: p.buckets ::
        (cellsOf (t.buckets.modify (bucketOf t.size key) fun _ => front ++ back).flatten ++
          others)) := by
      refine hown₁.perm (List.Perm.trans ?_ (((((owned_perm (flatten_modify_perm _ hlt)).symm
        |>.append_right others).cons _).cons _).cons _ |>.cons _))
      rw [List.perm_iff_count]
      intro a
      simp only [cellsOf_cons, cellsOf_append, List.count_cons, List.count_append]
      ring
    obtain ⟨h₂, h₃, h₄, hstr, hfree, hent, hown₄, hkeep₄⟩ := free_entry hown₁'
      ((hkeep₁ e.val.entry (by simp)).trans hentry) ((hkeep₁ e.val.key (by simp)).trans hkey)
      ((hkeep₁ e.val.obj (by simp)).trans hobj)
    have hrun : p.del key = some ({ p with heap := h₄, count := p.count - 1 }, true) := by
      rw [DictPtr.del, hp.size_eq, loadSlot_eq htable hhead, Option.bind_eq_bind,
        Option.bind_some, findLink_eq_some hseg hlen hfront hk]
      simp only [Option.bind_eq_bind, Option.bind_some, derefEntry_eq hentry, hlink, hstr, hfree,
        hent]
    rw [hdel]
    refine ⟨_, hrun, ⟨hp.size_eq, congrArg (· - 1) hp.count_eq, hown₄, heads', ?_, ?_⟩,
      fun a ha => ?_⟩
    · rw [hkeep₄ _ List.mem_cons_self, htable']
    · exact Chains.frame hchains' fun a ha =>
        hkeep₄ a (List.mem_cons_of_mem _ (List.mem_append_left _ ha))
    · rw [hkeep₄ a (by simp [ha]), hkeep₁ a (by simp [ha])]

end DictPtr.Repr

/-! ### `dict_each` and the destructor -/

section Each

variable {h : Heap (DictCell α)} {fuel : ℕ} (fn : σ → Bytes → α → σ × Bool)

/-- The visit of a chain calls the callback for each of its entries, until it says stop. -/
theorem eachChain_eq {p : Option Addr} {es : List (DictEntry (Resident α))}
    (hes : EntrySeg h p es none) (hfuel : es.length ≤ fuel) (ud : σ) :
    eachChain h fn fuel p ud = some (chainEach (fun ud key r => fn ud key r.val) ud es) := by
  induction es generalizing p fuel ud with
  | nil =>
    obtain rfl := Seg.nil_iff.mp hes
    cases fuel <;> rfl
  | cons e es ih =>
    obtain _ | fuel := fuel
    · exact absurd hfuel (by simp)
    obtain ⟨rfl, next, hrest, hentry, hkey, hobj⟩ := hes.of_cons
    rw [eachChain, derefEntry_eq hentry, Option.bind_eq_bind, Option.bind_some, derefStr_eq hkey,
      Option.bind_eq_bind, Option.bind_some, derefObj_eq hobj, Option.bind_eq_bind,
      Option.bind_some, chainEach]
    rcases fn ud e.key e.val.val with ⟨ud', _ | _⟩
    · -- the callback says stop
      rfl
    · exact ih hrest (Nat.le_of_succ_le_succ hfuel) ud'

/-- The visit goes on from bucket to bucket. -/
theorem eachBuckets_eq {buckets : Addr} {heads : List (Option Addr)}
    {chains : List (List (DictEntry (Resident α)))} {i : ℕ}
    (htable : h.cell buckets = some (.table heads))
    (hchains : (residentShape α).Chains h.cell (heads.drop i) chains)
    (hfuel : ∀ chain ∈ chains, chain.length ≤ fuel) (ud : σ) :
    eachBuckets h buckets fn fuel chains.length i ud =
      some (bucketsEach (fun ud key r => fn ud key r.val) ud chains).1 := by
  induction chains generalizing i ud with
  | nil => rfl
  | cons chain chains ih =>
    obtain ⟨head, hslot, hhead, htail⟩ := hchains.of_cons
    rw [List.length_cons, eachBuckets, loadSlot_eq htable hslot, Option.bind_eq_bind,
      Option.bind_some, eachChain_eq fn hhead (hfuel chain List.mem_cons_self), Option.bind_eq_bind,
      Option.bind_some, bucketsEach]
    obtain ⟨⟨ud', go⟩, hwalk⟩ : ∃ r, chainEach (fun ud key r => fn ud key r.val) ud chain = r :=
      ⟨_, rfl⟩
    rw [hwalk]
    cases go with
    | false => rfl
    | true => exact ih htail (fun c hc => hfuel c (List.mem_cons_of_mem _ hc)) ud'

end Each

section Free

variable {h : Heap (DictCell α)} {fuel : ℕ} {rest : List Addr}

/-- The destructor frees the cells of a chain, and touches no other. -/
theorem freeChain_spec {p : Option Addr} {es : List (DictEntry (Resident α))}
    (hown : h.Owns (cellsOf es ++ rest)) (hes : EntrySeg h p es none) (hfuel : es.length ≤ fuel) :
    ∃ h', freeChain fuel p h = some h' ∧ h'.Owns rest ∧ ∀ a ∈ rest, h'.cell a = h.cell a := by
  induction es generalizing h p fuel with
  | nil =>
    obtain rfl := Seg.nil_iff.mp hes
    exact ⟨h, by cases fuel <;> rfl, hown, fun _ _ => rfl⟩
  | cons e es ih =>
    obtain _ | fuel := fuel
    · exact absurd hfuel (by simp)
    obtain ⟨rfl, next, hrest, hentry, hkey, hobj⟩ := hes.of_cons
    have hown' : h.Owns (e.val.key :: e.val.obj :: e.val.entry :: (cellsOf es ++ rest)) := by
      refine hown.perm (List.perm_iff_count.mpr fun a => ?_)
      simp only [cellsOf_cons, List.cons_append, List.count_cons]
      ring
    obtain ⟨h₁, h₂, h₃, hstr, hfree, hent, hown₃, hkeep₃⟩ := free_entry hown' hentry hkey hobj
    obtain ⟨h', hrun, hown', hkeep'⟩ := ih hown₃
      (hrest.frame fun a ha => hkeep₃ a (List.mem_append_left _ ha)) (Nat.le_of_succ_le_succ hfuel)
    refine ⟨h', ?_, hown', fun a ha => ?_⟩
    · simp only [freeChain, derefEntry_eq hentry, hstr, hfree, hent, Option.bind_eq_bind,
        Option.bind_some, hrun]
    · rw [hkeep' a ha, hkeep₃ a (List.mem_append_right _ ha)]

/-- It frees the chains of one bucket after the other. -/
theorem freeBuckets_spec {buckets : Addr} {heads : List (Option Addr)}
    {chains : List (List (DictEntry (Resident α)))} {i : ℕ}
    (hown : h.Owns (cellsOf chains.flatten ++ buckets :: rest))
    (htable : h.cell buckets = some (.table heads))
    (hchains : (residentShape α).Chains h.cell (heads.drop i) chains)
    (hfuel : ∀ chain ∈ chains, chain.length ≤ fuel) :
    ∃ h', freeBuckets buckets fuel chains.length i h = some h' ∧ h'.Owns (buckets :: rest) ∧
      h'.cell buckets = some (.table heads) := by
  induction chains generalizing h i with
  | nil => exact ⟨h, rfl, hown, htable⟩
  | cons chain chains ih =>
    obtain ⟨head, hslot, hhead, htail⟩ := hchains.of_cons
    rw [List.flatten_cons, cellsOf_append, List.append_assoc] at hown
    obtain ⟨h₁, hrun₁, hown₁, hkeep₁⟩ :=
      freeChain_spec hown hhead (hfuel chain List.mem_cons_self)
    obtain ⟨h', hrun', hend⟩ := ih hown₁ ((hkeep₁ buckets (by simp)).trans htable)
      (Chains.frame htail fun a ha => hkeep₁ a (List.mem_append_left _ ha))
      fun c hc => hfuel c (List.mem_cons_of_mem _ hc)
    refine ⟨h', ?_, hend⟩
    rw [List.length_cons, freeBuckets, loadSlot_eq htable hslot, Option.bind_eq_bind,
      Option.bind_some, hrun₁]
    exact hrun'

end Free

namespace DictPtr.Repr

variable {p : DictPtr α} {t : Dict (Resident α)} {others : List Addr}

/-- **`dict_each`** hands the entries to the callback in the order of the table. -/
theorem each (hp : p.Repr t others) (ht : t.WF) (fn : σ → Bytes → α → σ × Bool) (ud : σ) :
    p.each fn ud = some (dictEach (t.mapVal Resident.val) fn ud) := by
  obtain ⟨heads, htable, hchains⟩ := hp.table
  have hlen : t.buckets.length = p.size := ht.length_eq.trans hp.size_eq.symm
  rw [DictPtr.each, ← hlen,
    eachBuckets_eq fn htable (i := 0) hchains (fun _ hc => hp.chain_le ht hc) ud, dictEach_mapVal]
  rfl

/-- **The destructor** frees whatever the table has. -/
theorem destroy (hp : p.Repr t others) (ht : t.WF) :
    ∃ h, p.destroy = some h ∧ h.Owns others := by
  obtain ⟨heads, htable, hchains⟩ := hp.table
  have hlen : t.buckets.length = p.size := ht.length_eq.trans hp.size_eq.symm
  obtain ⟨h₁, hrun₁, hown₁, htable₁⟩ := freeBuckets_spec (hp.owns.perm List.perm_middle.symm)
    htable (i := 0) hchains fun _ hc => hp.chain_le ht hc
  refine ⟨_, ?_, hown₁.drop⟩
  rw [DictPtr.destroy, ← hlen, hrun₁]
  exact freeTable_eq htable₁

end DictPtr.Repr

/-! ### Calls in a row -/

/-- The call on the pointers. The caller of `dict_set` makes the object, and the caller of
`dict_get` reads the one it gets. -/
def DictOp.onPtr (d : DictPtr α) : DictOp α → Option (DictPtr α × DictAnswer α)
  | .set key val => do
    let (h, v) := d.heap.alloc (.obj val)
    let d ← ({ d with heap := h } : DictPtr α).set key v
    some (d, .done)
  | .get key => do
    match ← d.get key with
    | some v => do
      let o ← derefObj d.heap v
      some (d, .got (some o))
    | none => some (d, .got none)
  | .del key => do
    let (d, found) ← d.del key
    some (d, .removed found)

/-- The calls, one after the other. -/
def DictPtr.calls (d : DictPtr α) : List (DictOp α) → Option (DictPtr α × List (DictAnswer α))
  | [] => some (d, [])
  | op :: ops => do
    let (d, answer) ← op.onPtr d
    let (d, answers) ← d.calls ops
    some (d, answer :: answers)

/-- The call neither sets nor deletes the key. -/
def DictOp.Spares (key : Bytes) : DictOp α → Prop
  | .set k _ => k ≠ key
  | .get _ => True
  | .del k => k ≠ key

namespace DictPtr.Repr

variable {p : DictPtr α} {t : Dict (Resident α)} {others : List Addr}

/-- A new table is represented, with nothing but its bucket array. -/
theorem new : (DictPtr.new : DictPtr α).Repr dictNew [] where
  size_eq := rfl
  count_eq := rfl
  owns := by
    rw [entries_dictNew]
    exact Heap.owns_empty.alloc _
  table := ⟨_, Heap.cell_alloc_self, Chains.replicate _ _⟩

/-- The object that an entry points to. -/
theorem obj_of_get (hp : p.Repr t others) (ht : t.WF) {key : Bytes} {r : Resident α}
    (hget : dictGet t key = some r) : p.heap.cell r.obj = some (.obj r.val) := by
  obtain ⟨_, _, -, -, -, hseg, -⟩ := hp.bucket ht key
  rw [dictGet, Option.map_eq_some_iff] at hget
  obtain ⟨e, hfind, rfl⟩ := hget
  obtain ⟨-, front, back, hsplit, -⟩ := List.find?_eq_some_iff_append.mp hfind
  rw [hsplit] at hseg
  obtain ⟨-, _, -, -, -, hobj⟩ := EntrySeg.of_middle hseg
  exact hobj

/-- **One call.** It has a result, answers as the table of contents does, and leaves the entries of
all other keys where they are. -/
theorem step (hp : p.Repr t []) (ht : t.WF) (op : DictOp α) :
    ∃ p' t', op.onPtr p = some (p', (op.onDict (t.mapVal Resident.val)).2) ∧ p'.Repr t' [] ∧
      t'.WF ∧ t'.mapVal Resident.val = (op.onDict (t.mapVal Resident.val)).1 ∧
      ∀ key, op.Spares key → dictGet t' key = dictGet t key := by
  cases op with
  | set key val =>
    obtain ⟨h₁, hh₁⟩ : ∃ h₁, h₁ = (p.heap.alloc (.obj val)).1 := ⟨_, rfl⟩
    have hkeep : ∀ a ∈ p.buckets :: cellsOf t.entries, h₁.cell a = p.heap.cell a := fun a ha =>
      hh₁ ▸ Heap.cell_alloc_of_ne (ne_of_mem_of_not_mem (by simpa using ha) hp.owns.brk_notMem)
    obtain ⟨heads, htable, hchains⟩ := hp.table
    -- the object that the caller makes is not the table's yet
    have hp₁ : ({ p with heap := h₁ } : DictPtr α).Repr t [p.heap.brk] := by
      refine ⟨hp.size_eq, hp.count_eq, ?_, heads, (hkeep _ List.mem_cons_self).trans htable,
        hchains.frame fun a ha => hkeep a (List.mem_cons_of_mem _ ha)⟩
      refine hh₁ ▸ (hp.owns.alloc _).perm ?_
      rw [List.append_nil, ← List.cons_append]
      exact (List.perm_append_singleton _ _).symm
    obtain ⟨p', r, hrun, hval, -, hp', -⟩ := hp₁.set ht key (hh₁ ▸ Heap.cell_alloc_self)
    refine ⟨p', dictSet t key r, ?_, hp', wf_dictSet ht key r, ?_, fun k hk => ?_⟩
    · -- the object was made at the end of the heap
      simp only [DictOp.onPtr, ← hh₁]
      rw [show (p.heap.alloc (.obj val)).2 = p.heap.brk from rfl, hrun]
      rfl
    · rw [dictSet_mapVal, hval]
      rfl
    · rw [dictGet_dictSet ht, Function.update_of_ne (Ne.symm hk)]
  | get key =>
    refine ⟨p, t, ?_, hp, ht, rfl, fun _ _ => rfl⟩
    rw [DictOp.onPtr, hp.get ht, DictOp.onDict, dictGet_mapVal]
    cases hget : dictGet t key with
    | none => rfl
    | some r =>
      simp only [Option.map_some, Option.bind_eq_bind, Option.bind_some,
        derefObj_eq (hp.obj_of_get ht hget)]
  | del key =>
    obtain ⟨p', hrun, hp', -⟩ := hp.del ht key
    refine ⟨p', (dictDel t key).1, ?_, hp', wf_dictDel ht key, ?_, fun k hk => ?_⟩
    · rw [DictOp.onPtr, hrun, DictOp.onDict, dictDel_mapVal]
      rfl
    · rw [DictOp.onDict, dictDel_mapVal]
    · rw [dictGet_dictDel ht, Function.update_of_ne (Ne.symm hk)]

/-- **Any calls.** -/
theorem calls (hp : p.Repr t []) (ht : t.WF) (ops : List (DictOp α)) :
    ∃ p' t', p.calls ops = some (p', (run DictOp.onDict (t.mapVal Resident.val) ops).2) ∧
      p'.Repr t' [] ∧ t'.WF ∧
      t'.mapVal Resident.val = (run DictOp.onDict (t.mapVal Resident.val) ops).1 ∧
      ∀ key, (∀ op ∈ ops, op.Spares key) → dictGet t' key = dictGet t key := by
  induction ops generalizing p t with
  | nil => exact ⟨p, t, rfl, hp, ht, rfl, fun _ _ => rfl⟩
  | cons op ops ih =>
    obtain ⟨p₁, t₁, hrun₁, hp₁, ht₁, hmap₁, hspare₁⟩ := hp.step ht op
    obtain ⟨p', t', hrun', hp', ht', hmap', hspare'⟩ := ih hp₁ ht₁
    refine ⟨p', t', ?_, hp', ht', ?_, fun key hkey => ?_⟩
    · simp only [DictPtr.calls, hrun₁, Option.bind_eq_bind, Option.bind_some, hrun', run_cons,
        ← hmap₁]
    · rw [hmap', hmap₁, run_cons]
    · rw [hspare' key fun o ho => hkey o (List.mem_cons_of_mem _ ho),
        hspare₁ key (hkey op List.mem_cons_self)]

end DictPtr.Repr

/-- An entry has three cells. -/
theorem length_cellsOf (es : List (DictEntry (Resident α))) :
    (cellsOf es).length = 3 * es.length := by
  induction es with
  | nil => rfl
  | cons e es ih =>
    rw [cellsOf_cons, List.length_cons, List.length_cons, List.length_cons, ih, List.length_cons]
    ring

/-- **The table owns its memory.** Any calls on a fresh table have a result: no null or dangling
pointer is followed, nothing is freed twice, every index is inside the bucket array and no chain is
a cycle. They answer as the table of contents does. What is allocated afterwards is the bucket array
and three cells for each entry, `dict_each` visits the entries in the order of the table of
contents, and the destructor leaves nothing allocated. -/
theorem dict_owns_memory (ops : List (DictOp α)) :
    ∃ p, DictPtr.new.calls ops = some (p, (run DictOp.onDict dictNew ops).2) ∧
      (∃ cells, p.heap.Owns cells ∧ cells.length = 1 + 3 * p.count) ∧
      p.count = (run DictOp.onDict dictNew ops).1.count ∧
      (∀ (σ : Type) (fn : σ → Bytes → α → σ × Bool) (ud : σ),
        p.each fn ud = some (dictEach (run DictOp.onDict dictNew ops).1 fn ud)) ∧
      ∃ h, p.destroy = some h ∧ ∀ a, h.cell a = none := by
  obtain ⟨p, t, hrun, hp, ht, hmap, -⟩ := DictPtr.Repr.new.calls wf_dictNew ops
  rw [dictNew_mapVal] at hrun hmap
  rw [← hmap]
  obtain ⟨h, hfree, hown⟩ := hp.destroy ht
  refine ⟨p, hrun, ⟨_, hp.owns, ?_⟩, hp.count_eq, fun σ fn ud => hp.each ht fn ud, h, hfree,
    hown.cell_eq_none⟩
  rw [List.append_nil, List.length_cons, length_cellsOf, hp.count_eq, ht.count_eq]
  ring

/-- **The pointer that `dict_get` returned stays good.** Calls on other keys, however often they
resize the table, leave the object of the key where it is and as it is. -/
theorem dict_pointer_stable (ops more : List (DictOp α)) {key : Bytes} {p : DictPtr α}
    {answers : List (DictAnswer α)} {v : Addr} (hrun : DictPtr.new.calls ops = some (p, answers))
    (hget : p.get key = some (some v)) (hmore : ∀ op ∈ more, op.Spares key) :
    ∃ p' answers' o, p.calls more = some (p', answers') ∧ p'.get key = some (some v) ∧
      derefObj p.heap v = some o ∧ derefObj p'.heap v = some o := by
  obtain ⟨p₁, t, hrun₁, hp, ht, -, -⟩ := DictPtr.Repr.new.calls wf_dictNew ops
  obtain ⟨rfl, -⟩ := Prod.mk.inj (Option.some.inj (hrun₁.symm.trans hrun))
  obtain ⟨p', t', hrun', hp', ht', -, hspare⟩ := hp.calls ht more
  rw [hp.get ht, Option.some.injEq, Option.map_eq_some_iff] at hget
  obtain ⟨r, hr, rfl⟩ := hget
  have hr' := (hspare key hmore).trans hr
  refine ⟨p', _, r.val, hrun', ?_, derefObj_eq (hp.obj_of_get ht hr),
    derefObj_eq (hp'.obj_of_get ht' hr')⟩
  rw [hp'.get ht', hr', Option.map_some]

/-- Two keys, and then forty others that make the table grow from 16 to 64 buckets, the second key
gone: the object of the first key is where it was. -/
theorem dict_pointer_stable_resized :
    let more : List (DictOp ℕ) := .del [98] :: (List.range 40).map fun i => .set [99, i.toUInt8] i
    ∃ (p p' : DictPtr ℕ) (v : Addr) (answers : List (DictAnswer ℕ)),
      DictPtr.new.calls [.set [97] 1, .set [98] 2] = some (p, [.done, .done]) ∧
      p.get [97] = some (some v) ∧ p.calls more = some (p', answers) ∧
      p.size = 16 ∧ p'.size = 64 ∧
      p'.get [97] = some (some v) ∧ derefObj p'.heap v = some 1 := by
  intro more
  obtain ⟨p, t, hrun, hp, ht, hmap, -⟩ :=
    DictPtr.Repr.new.calls wf_dictNew [.set [97] (1 : ℕ), .set [98] 2]
  have hval : (dictGet t [97]).map Resident.val = some 1 := by
    rw [← dictGet_mapVal, hmap, dictNew_mapVal, run_cons, run_cons, run_nil]
    simp only [DictOp.onDict]
    rw [dictGet_dictSet (wf_dictSet wf_dictNew _ _), dictGet_dictSet wf_dictNew]
    rfl
  obtain ⟨r, hr, hone⟩ := Option.map_eq_some_iff.mp hval
  have hget : p.get [97] = some (some r.obj) := by rw [hp.get ht, hr, Option.map_some]
  have hspare : ∀ op ∈ more, op.Spares [97] := by
    intro op hop
    rcases List.mem_cons.mp hop with rfl | hop
    · exact fun heq => absurd heq (by decide)
    · obtain ⟨i, -, rfl⟩ := List.mem_map.mp hop
      exact fun heq => absurd heq (by simp)
  obtain ⟨p', answers, o, hrun', hget', hobj, hobj'⟩ :=
    dict_pointer_stable _ more hrun hget hspare
  rw [derefObj_eq (hp.obj_of_get ht hr), hone] at hobj
  -- the sizes are those of the tables
  obtain ⟨p₂, t', hrun₂, hp', -, hmap', -⟩ := hp.calls ht more
  obtain ⟨rfl, -⟩ := Prod.mk.inj (Option.some.inj (hrun₂.symm.trans hrun'))
  have hsize : p.size = 16 := by
    rw [hp.size_eq, show t.size = (t.mapVal Resident.val).size from rfl, hmap, dictNew_mapVal]
    decide +kernel
  have hsize' : p₂.size = 64 := by
    rw [hp'.size_eq, show t'.size = (t'.mapVal Resident.val).size from rfl, hmap', hmap,
      dictNew_mapVal]
    decide +kernel
  exact ⟨p, p₂, r.obj, answers, hrun, hget, hrun', hsize, hsize', hget', hobj'.trans hobj.symm⟩

end Minired
