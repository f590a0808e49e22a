import Minired.Object
import Minired.DictMap
import Minired.Lib.Heap

/-!
# The hash table, pointer by pointer

`dict.cpp` once more, with the memory it works in. `Minired.Dict` has the content of the chains;
here an entry is a cell of the heap that holds three pointers, its key is an `sds` string in another
cell, its object in a third, and the bucket array is a cell, too. Following a null pointer or one
that was freed, freeing twice, an index outside the bucket array and a cell of another kind than the
code takes it for all give no result, `none`.

A `while (e)` loop takes a bound on its turns and has no result when it is reached. The callers pass
`count`, so a result also says that no chain is longer than that, and so that none is a cycle.

`malloc` and `calloc` do not fail here, and an object is a cell whatever else hangs off it: `Obj`
has no destructor, so `delete e->val` gives back this one cell.
-/

namespace Minired

/-- `DictEntry`. -/
structure EntryCell where
  key : Addr
  val : Addr
  next : Option Addr

/-- What a cell of the heap holds. -/
inductive DictCell (α : Type)
  /-- What `malloc` returns. -/
  | raw
  /-- A bucket array. -/
  | table (buckets : List (Option Addr))
  | entry (e : EntryCell)
  | str (s : Bytes)
  | obj (o : α)

/-- `Dict`, and the heap that it lives in. -/
structure DictPtr (α : Type) where
  heap : Heap (DictCell α)
  buckets : Addr
  size : ℕ
  count : ℕ

/-- `DictEntry** prev`: a slot of the bucket array or the `next` field of an entry. -/
inductive DictLink
  | bucket (i : ℕ)
  | next (a : Addr)

variable {α σ : Type}

/-! ### Cells -/

/-- The bucket array at an address. -/
def derefTable (h : Heap (DictCell α)) (a : Addr) : Option (List (Option Addr)) :=
  match h.cell a with
  | some (.table buckets) => some buckets
  | _ => none

/-- `*e`. -/
def derefEntry (h : Heap (DictCell α)) (a : Addr) : Option EntryCell :=
  match h.cell a with
  | some (.entry e) => some e
  | _ => none

/-- The bytes and the length of an `sds`. -/
def derefStr (h : Heap (DictCell α)) (a : Addr) : Option Bytes :=
  match h.cell a with
  | some (.str s) => some s
  | _ => none

/-- `*val`. -/
def derefObj (h : Heap (DictCell α)) (a : Addr) : Option α :=
  match h.cell a with
  | some (.obj o) => some o
  | _ => none

/-- `buckets[i]`. -/
def loadSlot (h : Heap (DictCell α)) (table : Addr) (i : ℕ) : Option (Option Addr) := do
  let buckets ← derefTable h table
  buckets[i]?

/-- `buckets[i] = p`. -/
def storeSlot (h : Heap (DictCell α)) (table : Addr) (i : ℕ) (p : Option Addr) :
    Option (Heap (DictCell α)) := do
  let buckets ← derefTable h table
  if i < buckets.length then h.store table (.table (buckets.set i p)) else none

/-- `e->next = p`. -/
def storeNext (h : Heap (DictCell α)) (a : Addr) (p : Option Addr) :
    Option (Heap (DictCell α)) := do
  let e ← derefEntry h a
  h.store a (.entry { e with next := p })

/-- `*prev = p`. -/
def storeLink (h : Heap (DictCell α)) (table : Addr) (prev : DictLink) (p : Option Addr) :
    Option (Heap (DictCell α)) :=
  match prev with
  | .bucket i => storeSlot h table i p
  | .next a => storeNext h a p

/-- `sds_free` on a key. -/
def freeStr (h : Heap (DictCell α)) (a : Addr) : Option (Heap (DictCell α)) := do
  let _ ← derefStr h a
  h.free a

/-- `delete e->val`. -/
def freeObj (h : Heap (DictCell α)) (a : Addr) : Option (Heap (DictCell α)) := do
  let _ ← derefObj h a
  h.free a

/-- `free(e)`. -/
def freeEntry (h : Heap (DictCell α)) (a : Addr) : Option (Heap (DictCell α)) := do
  let _ ← derefEntry h a
  h.free a

/-- `free(d->buckets)`. -/
def freeTable (h : Heap (DictCell α)) (a : Addr) : Option (Heap (DictCell α)) := do
  let _ ← derefTable h a
  h.free a

/-! ### Loops -/

/-- `while (e)` in `dict_set` and `dict_get`: the first entry of the key. -/
def findEntry (h : Heap (DictCell α)) (key : Bytes) : ℕ → Option Addr → Option (Option Addr)
  | _, none => some none
  | 0, some _ => none
  | fuel + 1, some a => do
    let e ← derefEntry h a
    let k ← derefStr h e.key
    if k = key then some (some a) else findEntry h key fuel e.next

/-- `while (e)` in `dict_del`: the first entry of the key, and the pointer that leads to it. -/
def findLink (h : Heap (DictCell α)) (key : Bytes) :
    ℕ → DictLink → Option Addr → Option (Option (DictLink × Addr))
  | _, _, none => some none
  | 0, _, some _ => none
  | fuel + 1, prev, some a => do
    let e ← derefEntry h a
    let k ← derefStr h e.key
    if k = key then some (some (prev, a)) else findLink h key fuel (.next a) e.next

/-- `while (e)` in `dict_resize`: each entry of the chain goes to the head of its new one. -/
def relinkChain (newBuckets : Addr) (newSize : ℕ) :
    ℕ → Option Addr → Heap (DictCell α) → Option (Heap (DictCell α))
  | _, none, h => some h
  | 0, some _, _ => none
  | fuel + 1, some a, h => do
    let e ← derefEntry h a
    let k ← derefStr h e.key
    let newIdx := bucketOf newSize k
    let head ← loadSlot h newBuckets newIdx
    let h ← storeNext h a head
    let h ← storeSlot h newBuckets newIdx (some a)
    relinkChain newBuckets newSize fuel e.next h

/-- `for (i < d->size)` in `dict_resize`, with `n` turns to go. -/
def relinkBuckets (buckets newBuckets : Addr) (newSize fuel : ℕ) :
    ℕ → ℕ → Heap (DictCell α) → Option (Heap (DictCell α))
  | 0, _, h => some h
  | n + 1, i, h => do
    let head ← loadSlot h buckets i
    let h ← relinkChain newBuckets newSize fuel head h
    relinkBuckets buckets newBuckets newSize fuel n (i + 1) h

/-- `while (e)` in `dict_each`. -/
def eachChain (h : Heap (DictCell α)) (fn : σ → Bytes → α → σ × Bool) :
    ℕ → Option Addr → σ → Option (σ × Bool)
  | _, none, ud => some (ud, true)
  | 0, some _, _ => none
  | fuel + 1, some a, ud => do
    let e ← derefEntry h a
    let k ← derefStr h e.key
    let o ← derefObj h e.val
    match fn ud k o with
    | (ud, true) => eachChain h fn fuel e.next ud
    | (ud, false) => some (ud, false)

/-- `for (i < d->size)` in `dict_each`, with `n` turns to go. -/
def eachBuckets (h : Heap (DictCell α)) (buckets : Addr) (fn : σ → Bytes → α → σ × Bool)
    (fuel : ℕ) : ℕ → ℕ → σ → Option σ
  | 0, _, ud => some ud
  | n + 1, i, ud => do
    let head ← loadSlot h buckets i
    match ← eachChain h fn fuel head ud with
    | (ud, true) => eachBuckets h buckets fn fuel n (i + 1) ud
    | (ud, false) => some ud

/-- `while (e)` in the destructor. -/
def freeChain : ℕ → Option Addr → Heap (DictCell α) → Option (Heap (DictCell α))
  | _, none, h => some h
  | 0, some _, _ => none
  | fuel + 1, some a, h => do
    let e ← derefEntry h a
    let h ← freeStr h e.key
    let h ← freeObj h e.val
    let h ← freeEntry h a
    freeChain fuel e.next h

/-- `for (i < size)` in the destructor, with `n` turns to go. -/
def freeBuckets (buckets : Addr) (fuel : ℕ) :
    ℕ → ℕ → Heap (DictCell α) → Option (Heap (DictCell α))
  | 0, _, h => some h
  | n + 1, i, h => do
    let head ← loadSlot h buckets i
    let h ← freeChain fuel head h
    freeBuckets buckets fuel n (i + 1) h

/-! ### The operations -/

namespace DictPtr

/-- The constructor `Dict::Dict`. -/
def new : DictPtr α :=
  let table := Heap.empty.alloc (.table (List.replicate DICT_INITIAL_SIZE none))
  ⟨table.1, table.2, DICT_INITIAL_SIZE, 0⟩

/-- `dict_resize`. -/
def resize (d : DictPtr α) (newSize : ℕ) : Option (DictPtr α) := do
  let (h, newBuckets) := d.heap.alloc (.table (List.replicate newSize none))
  let h ← relinkBuckets d.buckets newBuckets newSize d.count d.size 0 h
  let h ← freeTable h d.buckets
  some { d with heap := h, buckets := newBuckets, size := newSize }

/-- The part of `dict_set` behind the load test. -/
def insert (d : DictPtr α) (key : Bytes) (val : Addr) : Option (DictPtr α) := do
  let idx := bucketOf d.size key
  let head ← loadSlot d.heap d.buckets idx
  match ← findEntry d.heap key d.count head with
  | some a =>
    let e ← derefEntry d.heap a
    let h ← freeObj d.heap e.val
    let h ← h.store a (.entry { e with val := val })
    some { d with heap := h }
  | none =>
    let (h, ne) := d.heap.alloc .raw
    let (h, k) := h.alloc (.str key)
    let head ← loadSlot h d.buckets idx
    let h ← h.store ne (.entry ⟨k, val, head⟩)
    let h ← storeSlot h d.buckets idx (some ne)
    some { d with heap := h, count := d.count + 1 }

/-- `dict_set`. The object is the caller's, and becomes the table's. -/
def set (d : DictPtr α) (key : Bytes) (val : Addr) : Option (DictPtr α) := do
  let d ← if 3 * d.size < 4 * d.count then d.resize (d.size * 2) else some d
  d.insert key val

/-- `dict_get`: the pointer `e->val`, or null. -/
def get (d : DictPtr α) (key : Bytes) : Option (Option Addr) := do
  let head ← loadSlot d.heap d.buckets (bucketOf d.size key)
  match ← findEntry d.heap key d.count head with
  | some a => do
    let e ← derefEntry d.heap a
    some (some e.val)
  | none => some none

/-- `dict_del`. -/
def del (d : DictPtr α) (key : Bytes) : Option (DictPtr α × Bool) := do
  let idx := bucketOf d.size key
  let head ← loadSlot d.heap d.buckets idx
  match ← findLink d.heap key d.count (.bucket idx) head with
  | some (prev, a) =>
    let e ← derefEntry d.heap a
    let h ← storeLink d.heap d.buckets prev e.next
    let h ← freeStr h e.key
    let h ← freeObj h e.val
    let h ← freeEntry h a
    some ({ d with heap := h, count := d.count - 1 }, true)
  | none => some (d, false)

/-- `dict_each`. -/
def each (d : DictPtr α) (fn : σ → Bytes → α → σ × Bool) (ud : σ) : Option σ :=
  eachBuckets d.heap d.buckets fn d.count d.size 0 ud

/-- The destructor `Dict::~Dict`: what is left of the heap. -/
def destroy (d : DictPtr α) : Option (Heap (DictCell α)) := do
  let h ← freeBuckets d.buckets d.count d.size 0 d.heap
  freeTable h d.buckets

end DictPtr

end Minired
