import Minired.RdbReject
import Minired.Lib.Layout

/-!
# The layout of snapshots

A snapshot is a list of pieces: the magic number, the version, counts, lengths and types frame
it, and deadlines, scores and the bytes of strings are its data. `FileBody` is what stands in front
of the checksum, and `FileBody.bytes` how it is laid out.

The reading functions accept exactly these layouts. In one direction, a reader in front of a layout
reads it to its end and sums it up (`readBlob_before` and the others). In the other, what a reader
has taken when it succeeds was a layout (`readBlob_took` and the others). `rdbLoad_accepts_iff` puts
them together: a file is accepted if and only if it is a layout, its checksum, and then anything.

Whether a blob fits into the buffer that is made for it does not matter here: what the functions
return does not depend on it.
-/

namespace Minired

open LittleEndian Layout

/-! ### Pieces -/

/-- A blob: its length, and its data. -/
def blobPieces (data : Bytes) : List (Piece UInt8) :=
  [.frame (encode 4 data.length), .data data]

/-- A field of a hash, and its value. -/
def fieldPieces (kv : Bytes × Bytes) : List (Piece UInt8) := blobPieces kv.1 ++ blobPieces kv.2

/-- A score, and its member. -/
def recordPieces (c : Bytes × Double) : List (Piece UInt8) :=
  .data (encode 8 c.2.bits.toNat) :: blobPieces c.1

/-- The number of the type. -/
def RawValue.type : RawValue → ℕ
  | .str _ => 0
  | .list _ => 1
  | .hash _ => 2
  | .zset _ => 3

/-- A value; what has many items has their number in front. -/
def RawValue.pieces : RawValue → List (Piece UInt8)
  | .str s => blobPieces s
  | .list l => .frame (encode 4 l.length) :: l.flatMap blobPieces
  | .hash kvs => .frame (encode 4 kvs.length) :: kvs.flatMap fieldPieces
  | .zset cs => .frame (encode 4 cs.length) :: cs.flatMap recordPieces

/-- An entry: type, deadline, key and value. -/
def FileEntry.pieces (e : FileEntry) : List (Piece UInt8) :=
  .frame (encode 1 e.value.type) :: .data (encode 8 e.expireAtMs.toUInt64.toNat) ::
    (blobPieces e.key ++ e.value.pieces)

/-- The length of the blob has 32 bits. -/
def FitsBlob (data : Bytes) : Prop := data.length < 2 ^ 32

/-- All lengths and counts of the value have 32 bits. -/
def RawValue.Fits : RawValue → Prop
  | .str s => FitsBlob s
  | .list l => l.length < 2 ^ 32 ∧ ∀ e ∈ l, FitsBlob e
  | .hash kvs => kvs.length < 2 ^ 32 ∧ ∀ kv ∈ kvs, FitsBlob kv.1 ∧ FitsBlob kv.2
  | .zset cs => cs.length < 2 ^ 32 ∧ ∀ c ∈ cs, FitsBlob c.1

/-- A well-formed entry. -/
structure FileEntry.Fits (e : FileEntry) : Prop where
  key : FitsBlob e.key
  value : e.value.Fits

/-- A snapshot in front of its checksum: well-formed entries, as many as 64 bits can count. -/
structure FileBody where
  entries : List FileEntry
  fits : ∀ e ∈ entries, e.Fits
  count_lt : entries.length < 2 ^ 64

namespace FileBody

/-- The head, which announces the number of entries, and the entries. -/
def pieces (b : FileBody) : List (Piece UInt8) :=
  .frame RDB_MAGIC :: .frame (encode 4 RDB_VERSION.toNat) ::
    .frame (encode 8 b.entries.length) :: b.entries.flatMap FileEntry.pieces

/-- The bytes in front of the checksum. -/
def bytes (b : FileBody) : Bytes := contents b.pieces

/-- The checksum of the body. -/
def checksum (b : FileBody) : UInt64 := crc64Update 0 b.bytes

end FileBody

/-! ### What a reader has taken -/

/-- The reader has taken these bytes from its file, and everything is fine. -/
structure Reader.Took (r r' : Reader) (bs : Bytes) : Prop where
  ok : r'.ok = true
  rest : r.rest = bs ++ r'.rest
  crc : r'.crc = crc64Update r.crc bs

/-- These bytes are in front of the reader. -/
structure Reader.Before (r : Reader) (bs : Bytes) : Prop where
  ok : r.ok = true
  rest : ∃ tail, r.rest = bs ++ tail

variable {r r' r'' : Reader} {as bs : Bytes}

/-- Nothing is taken by not reading. -/
theorem Reader.Took.nil (hok : r.ok = true) : r.Took r [] := ⟨hok, rfl, rfl⟩

/-- What is taken in two steps is taken. -/
theorem Reader.Took.trans (h : r.Took r' as) (h' : r'.Took r'' bs) : r.Took r'' (as ++ bs) := by
  refine ⟨h'.ok, ?_, ?_⟩
  · rw [h.rest, h'.rest, List.append_assoc]
  · rw [h'.crc, h.crc, crc64Update_append]

/-- In front of two pieces the reader is in front of the first. -/
theorem Reader.Before.front (h : r.Before (as ++ bs)) : r.Before as := by
  obtain ⟨hok, tail, htail⟩ := h
  exact ⟨hok, bs ++ tail, by rw [htail, List.append_assoc]⟩

/-- Behind what the reader took, the other bytes are in front of it. -/
theorem Reader.Took.before (h : r.Took r' as) (hr : r.Before (as ++ bs)) : r'.Before bs := by
  obtain ⟨-, tail, htail⟩ := hr
  refine ⟨h.ok, tail, ?_⟩
  have hrest := h.rest.symm.trans htail
  rwa [List.append_assoc, List.append_cancel_left_eq] at hrest

/-! ### Reading what is there -/

/-- `fread` of as many bytes as stand there takes them. -/
theorem read_before (h : r.Before bs) : ∃ r', r.read bs.length = (r', some bs) ∧ r.Took r' bs := by
  obtain ⟨hok, tail, htail⟩ := h
  have hlen : ¬r.rest.length < bs.length := by
    rw [htail, List.length_append]
    omega
  refine ⟨{ r with rest := tail, crc := crc64Update r.crc bs }, ?_, hok, htail, rfl⟩
  rw [Reader.read, if_neg (by simp [hok]), if_neg hlen, htail, List.take_left, List.drop_left]

/-- A number that stands there is read. -/
theorem readUInt_before {w x : ℕ} (hx : x < 256 ^ w) (h : r.Before (encode w x)) :
    ∃ r', r.readUInt w = (r', some x) ∧ r.Took r' (encode w x) := by
  obtain ⟨r', hread, htook⟩ := read_before h
  rw [length_encode] at hread
  refine ⟨r', ?_, htook⟩
  rw [Reader.readUInt, hread]
  dsimp only
  rw [Option.map_some, decode_encode_of_lt hx]

/-- So is a deadline. -/
theorem readI64_before {v : Int64} (h : r.Before (encode 8 v.toUInt64.toNat)) :
    ∃ r', r.readI64 = (r', some v) ∧ r.Took r' (encode 8 v.toUInt64.toNat) := by
  obtain ⟨r', hread, htook⟩ := readUInt_before (UInt64.toNat_lt _) h
  refine ⟨r', ?_, htook⟩
  rw [Reader.readI64, hread]
  show (r', some (UInt64.ofNat v.toUInt64.toNat).toInt64) = _
  rw [UInt64.ofNat_toNat]
  rfl

/-- So is a score. -/
theorem readDouble_before {v : Double} (h : r.Before (encode 8 v.bits.toNat)) :
    ∃ r', r.readDouble = (r', some v) ∧ r.Took r' (encode 8 v.bits.toNat) := by
  obtain ⟨r', hread, htook⟩ := readUInt_before (UInt64.toNat_lt _) h
  refine ⟨r', ?_, htook⟩
  rw [Reader.readDouble, hread]
  simp

/-- So is a string with its length. -/
theorem readBlob_before {data : Bytes} (hdata : FitsBlob data)
    (h : r.Before (contents (blobPieces data))) :
    ∃ r', r.readBlob = (r', some data) ∧ r.Took r' (contents (blobPieces data)) := by
  have hbytes : contents (blobPieces data) = encode 4 data.length ++ data :=
    congrArg _ (List.append_nil data)
  rw [hbytes] at h ⊢
  obtain ⟨r₁, hlen, htook₁⟩ := readUInt_before (hdata : data.length < 256 ^ 4) h.front
  rw [Reader.readBlob, hlen]
  dsimp only
  -- the flag of the overrun is set or not, and the data is read
  obtain ⟨r₂, hread, htook₂⟩ := read_before (r := { r₁ with
    overrun := r₁.overrun || decide ((data.length + 1) % 2 ^ 32 < min data.length r₁.rest.length) })
    ⟨htook₁.ok, (htook₁.before h).rest⟩
  exact ⟨r₂, hread, htook₁.trans ⟨htook₂.ok, htook₂.rest, htook₂.crc⟩⟩

/-- So are the elements of a list, behind those read before. -/
theorem readList_before {l : List Bytes} (hl : ∀ e ∈ l, FitsBlob e) (acc : List Bytes)
    (h : r.Before (contents (l.flatMap blobPieces))) :
    ∃ r', readList l.length r acc = (r', some (acc ++ l)) ∧
      r.Took r' (contents (l.flatMap blobPieces)) := by
  induction l generalizing r acc with
  | nil => exact ⟨r, by rw [List.append_nil]; rfl, .nil h.ok⟩
  | cons e l ih =>
    rw [List.flatMap_cons, contents_append] at h ⊢
    obtain ⟨r₁, hblob, htook₁⟩ := readBlob_before (hl e List.mem_cons_self) h.front
    obtain ⟨r₂, hlist, htook₂⟩ :=
      ih (fun e he => hl e (List.mem_cons_of_mem _ he)) (acc ++ [e]) (htook₁.before h)
    refine ⟨r₂, ?_, htook₁.trans htook₂⟩
    rw [List.length_cons, readList, hblob]
    dsimp only
    rw [hlist, List.append_assoc, List.singleton_append]

/-- So are the fields of a hash. -/
theorem readHash_before {kvs : List (Bytes × Bytes)}
    (hkvs : ∀ kv ∈ kvs, FitsBlob kv.1 ∧ FitsBlob kv.2) (h : Dict Bytes)
    (hr : r.Before (contents (kvs.flatMap fieldPieces))) :
    ∃ r', readHash kvs.length r h = (r', some (buildHash h kvs)) ∧
      r.Took r' (contents (kvs.flatMap fieldPieces)) := by
  induction kvs generalizing r h with
  | nil => exact ⟨r, rfl, .nil hr.ok⟩
  | cons kv kvs ih =>
    rw [List.flatMap_cons, fieldPieces, contents_append, contents_append, List.append_assoc] at hr ⊢
    obtain ⟨hk, hv⟩ := hkvs kv List.mem_cons_self
    obtain ⟨r₁, hfield, htook₁⟩ := readBlob_before hk hr.front
    have hr₁ := htook₁.before hr
    obtain ⟨r₂, hval, htook₂⟩ := readBlob_before hv hr₁.front
    obtain ⟨r₃, hrest, htook₃⟩ := ih (fun kv hkv => hkvs kv (List.mem_cons_of_mem _ hkv))
      (htableSet h kv.1 kv.2) (htook₂.before hr₁)
    refine ⟨r₃, ?_, htook₁.trans (htook₂.trans htook₃)⟩
    rw [List.length_cons, readHash, hfield]
    dsimp only
    rw [hval]
    exact hrest

variable (libc : Libc)

/-- So are the records of a sorted set. -/
theorem readZSet_before {cs : List (Bytes × Double)} (hcs : ∀ c ∈ cs, FitsBlob c.1) (z : ZSet)
    (coins : Coins) (hr : r.Before (contents (cs.flatMap recordPieces))) :
    ∃ r' coins' z', readZSet libc cs.length r z coins = ((r', coins'), some z') ∧
      r.Took r' (contents (cs.flatMap recordPieces)) := by
  induction cs generalizing r z coins with
  | nil => exact ⟨r, coins, z, rfl, .nil hr.ok⟩
  | cons c cs ih =>
    have hbytes : contents ((c :: cs).flatMap recordPieces) = encode 8 c.2.bits.toNat ++
        (contents (blobPieces c.1) ++ contents (cs.flatMap recordPieces)) := by
      rw [List.flatMap_cons, recordPieces, List.cons_append, contents_cons, contents_append]
      rfl
    rw [hbytes] at hr ⊢
    obtain ⟨r₁, hscore, htook₁⟩ := readDouble_before hr.front
    have hr₁ := htook₁.before hr
    obtain ⟨r₂, hmember, htook₂⟩ := readBlob_before (hcs c List.mem_cons_self) hr₁.front
    obtain ⟨r₃, coins', z', hrest, htook₃⟩ := ih (fun c hc => hcs c (List.mem_cons_of_mem _ hc))
      (zsetAdd libc z c.1 c.2 coins).1 (zsetAdd libc z c.1 c.2 coins).2 (htook₂.before hr₁)
    refine ⟨r₃, coins', z', ?_, htook₁.trans (htook₂.trans htook₃)⟩
    rw [List.length_cons, readZSet, hscore]
    dsimp only
    rw [hmember]
    exact hrest

/-- **A value that stands there** is read, whatever its type is. -/
theorem readValue_before {v : RawValue} (hv : v.Fits) (coins : Coins)
    (hr : r.Before (contents v.pieces)) :
    ∃ r' coins' val, readValue libc v.type r coins = ((r', coins'), some val) ∧
      r.Took r' (contents v.pieces) := by
  cases v with
  | str s =>
    -- a string is one blob, and the others begin with a count
    obtain ⟨r', hblob, htook⟩ := readBlob_before hv hr
    refine ⟨r', coins, .str s, ?_, htook⟩
    show readValue libc 0 r coins = _
    rw [readValue, hblob]
    rfl
  | list l =>
    obtain ⟨hlen, hl⟩ := hv
    rw [RawValue.pieces, contents_cons] at hr ⊢
    obtain ⟨r₁, hcount, htook₁⟩ := readUInt_before (hlen : l.length < 256 ^ 4) hr.front
    obtain ⟨r₂, hlist, htook₂⟩ := readList_before hl [] (htook₁.before hr)
    refine ⟨r₂, coins, .list ([] ++ l), ?_, htook₁.trans htook₂⟩
    show readValue libc 1 r coins = _
    rw [readValue, hcount]
    dsimp only
    rw [hlist]
    rfl
  | hash kvs =>
    obtain ⟨hlen, hkvs⟩ := hv
    rw [RawValue.pieces, contents_cons] at hr ⊢
    obtain ⟨r₁, hcount, htook₁⟩ := readUInt_before (hlen : kvs.length < 256 ^ 4) hr.front
    obtain ⟨r₂, hhash, htook₂⟩ := readHash_before hkvs dictNew (htook₁.before hr)
    refine ⟨r₂, coins, .hash (buildHash dictNew kvs), ?_, htook₁.trans htook₂⟩
    show readValue libc 2 r coins = _
    rw [readValue, hcount]
    dsimp only
    rw [hhash]
    rfl
  | zset cs =>
    obtain ⟨hlen, hcs⟩ := hv
    rw [RawValue.pieces, contents_cons] at hr ⊢
    obtain ⟨r₁, hcount, htook₁⟩ := readUInt_before (hlen : cs.length < 256 ^ 4) hr.front
    -- the only one that tosses coins
    obtain ⟨r₂, coins', z', hzset, htook₂⟩ :=
      readZSet_before libc hcs zsetNew coins (htook₁.before hr)
    refine ⟨r₂, coins', .zset z', ?_, htook₁.trans htook₂⟩
    show readValue libc 3 r coins = _
    rw [readValue, hcount]
    dsimp only
    rw [hzset]
    rfl

/-- The fields of an entry, one after the other. -/
theorem FileEntry.bytes_eq (e : FileEntry) :
    contents e.pieces = encode 1 e.value.type ++ (encode 8 e.expireAtMs.toUInt64.toNat ++
      (contents (blobPieces e.key) ++ contents e.value.pieces)) := by
  rw [FileEntry.pieces, contents_cons, contents_cons, contents_append]
  rfl

/-- An entry that stands there is loaded. -/
theorem loadEntry_before (now : Int64) {e : FileEntry} (he : e.Fits) {s : LoadState}
    (hr : s.reader.Before (contents e.pieces)) :
    ∃ s', loadEntry libc now s = (s', true) ∧ s.reader.Took s'.reader (contents e.pieces) := by
  have htype : e.value.type < 256 ^ 1 := by
    cases e.value with
    | _ => exact of_decide_eq_true rfl
  rw [FileEntry.bytes_eq] at hr ⊢
  obtain ⟨r₁, hread₁, htook₁⟩ := readUInt_before htype hr.front
  have hr₁ := htook₁.before hr
  obtain ⟨r₂, hread₂, htook₂⟩ := readI64_before hr₁.front
  have hr₂ := htook₂.before hr₁
  obtain ⟨r₃, hread₃, htook₃⟩ := readBlob_before he.key hr₂.front
  obtain ⟨r₄, coins, val, hread₄, htook₄⟩ :=
    readValue_before libc he.value s.coins (htook₃.before hr₂)
  rw [loadEntry, hread₁]
  dsimp only
  rw [hread₂]
  dsimp only
  rw [hread₃]
  dsimp only
  rw [hread₄]
  exact ⟨_, rfl, htook₁.trans (htook₂.trans (htook₃.trans htook₄))⟩

/-- So are as many entries as stand there. -/
theorem loadLoop_before (now : Int64) {es : List FileEntry} (hes : ∀ e ∈ es, e.Fits)
    {s : LoadState} (hr : s.reader.Before (contents (es.flatMap FileEntry.pieces))) :
    ∃ s', loadLoop libc now es.length s = (s', true) ∧
      s.reader.Took s'.reader (contents (es.flatMap FileEntry.pieces)) := by
  induction es generalizing s with
  | nil => exact ⟨s, rfl, .nil hr.ok⟩
  | cons e es ih =>
    rw [List.flatMap_cons, contents_append] at hr ⊢
    obtain ⟨s₁, hentry, htook₁⟩ := loadEntry_before libc now (hes e List.mem_cons_self) hr.front
    obtain ⟨s₂, hloop, htook₂⟩ :=
      ih (fun e he => hes e (List.mem_cons_of_mem _ he)) (htook₁.before hr)
    refine ⟨s₂, ?_, htook₁.trans htook₂⟩
    rw [List.length_cons, loadLoop, hentry]
    exact hloop

/-- The fields of the body, one after the other. -/
theorem FileBody.bytes_eq (b : FileBody) :
    b.bytes = RDB_MAGIC ++ (encode 4 RDB_VERSION.toNat ++ (encode 8 b.entries.length ++
      contents (b.entries.flatMap FileEntry.pieces))) := rfl

/-- **A body is read to its end**, and the checksum decides. -/
theorem rdbLoad_body (now : Int64) (b : FileBody) (back : Bytes) (d : Dict Obj) (coins : Coins) :
    (rdbLoad libc now (some (b.bytes ++ back)) d coins).2 =
        decide (8 ≤ back.length ∧ decode (back.take 8) = b.checksum.toNat) ∧
      (8 ≤ back.length →
        (rdbLoad libc now (some (b.bytes ++ back)) d coins).1.reader.rest = back.drop 8) := by
  obtain ⟨r, hstart⟩ : ∃ r : Reader, r = ⟨b.bytes ++ back, 0, true, false⟩ := ⟨_, rfl⟩
  have hr : r.Before b.bytes := by
    rw [hstart]
    exact ⟨rfl, back, rfl⟩
  rw [FileBody.bytes_eq] at hr
  obtain ⟨r₁, hread₁, htook₁⟩ := read_before hr.front
  have hr₁ := htook₁.before hr
  obtain ⟨r₂, hread₂, htook₂⟩ := readUInt_before (by decide) hr₁.front
  have hr₂ := htook₂.before hr₁
  obtain ⟨r₃, hread₃, htook₃⟩ := readUInt_before (b.count_lt : _ < 256 ^ 8) hr₂.front
  obtain ⟨s, hloop, htook₄⟩ := loadLoop_before libc now b.fits (s := ⟨r₃, d, coins⟩)
    (htook₃.before hr₂)
  -- what the reader has taken by now is the body
  have htook := htook₁.trans (htook₂.trans (htook₃.trans htook₄))
  rw [← FileBody.bytes_eq, hstart] at htook
  have hrest : s.reader.rest = back := (List.append_cancel_left htook.rest).symm
  have hcrc : s.reader.crc = b.checksum := htook.crc
  have hmagic : RDB_MAGIC.length = 4 := by decide
  rw [hmagic] at hread₁
  rw [rdbLoad, ← hstart]
  simp only [hread₁, hread₂, hread₃, hloop, ne_eq, not_true, if_false, hrest, hcrc]
  by_cases hshort : back.length < 8
  · rw [if_pos hshort]
    refine ⟨?_, fun h => absurd hshort (not_lt.mpr h)⟩
    rw [decide_eq_false fun h => absurd hshort (not_lt.mpr h.1)]
  · rw [if_neg hshort]
    refine ⟨?_, fun _ => rfl⟩
    simp only [not_lt.mp hshort, true_and]

/-! ### What was read was there -/

section Took

omit libc

/-- What `fread` returns was there, and so many bytes were asked for. -/
theorem read_took {n : ℕ} {data : Bytes} (h : r.read n = (r', some data)) :
    data.length = n ∧ r.Took r' data := by
  rw [Reader.read] at h
  split_ifs at h with hok hlen
  · cases h
  · cases h
  · obtain ⟨rfl, hdata⟩ := Prod.mk.inj h
    obtain rfl := Option.some.inj hdata
    refine ⟨List.length_take_of_le (not_lt.mp hlen), by simpa using hok, ?_, rfl⟩
    exact (List.take_append_drop n r.rest).symm

/-- A number that was read stood there as so many bytes. -/
theorem readUInt_took {w x : ℕ} (h : r.readUInt w = (r', some x)) :
    x < 256 ^ w ∧ r.Took r' (encode w x) := by
  rw [Reader.readUInt] at h
  rcases hread : r.read w with ⟨r₁, o⟩
  rw [hread] at h
  obtain ⟨rfl, hx⟩ := Prod.mk.inj h
  obtain ⟨data, rfl, rfl⟩ := Option.map_eq_some_iff.mp hx
  obtain ⟨rfl, htook⟩ := read_took hread
  exact ⟨decode_lt data, by rwa [encode_decode]⟩

/-- An integer that is read as a `v`. -/
theorem readUInt_map_took {α : Type} {n : ℕ} {f : ℕ → α} {v : α}
    (h : ((r.readUInt n).1, (r.readUInt n).2.map f) = (r', some v)) :
    ∃ x < 256 ^ n, v = f x ∧ r.Took r' (encode n x) := by
  obtain ⟨hr', hv⟩ := Prod.mk.inj h
  obtain ⟨x, hx, rfl⟩ := Option.map_eq_some_iff.mp hv
  obtain ⟨hlt, htook⟩ := readUInt_took (Prod.ext hr' hx)
  exact ⟨x, hlt, rfl, htook⟩

/-- So did a deadline. -/
theorem readI64_took {v : Int64} (h : r.readI64 = (r', some v)) :
    r.Took r' (encode 8 v.toUInt64.toNat) := by
  obtain ⟨x, hx, rfl, htook⟩ := readUInt_map_took h
  have hback : x.toUInt64.toInt64.toUInt64.toNat = x := Nat.mod_eq_of_lt hx
  rwa [hback]

/-- So did a score. -/
theorem readDouble_took {v : Double} (h : r.readDouble = (r', some v)) :
    r.Took r' (encode 8 v.bits.toNat) := by
  obtain ⟨x, hx, rfl, htook⟩ := readUInt_map_took h
  have hback : x.toUInt64.toNat = x := Nat.mod_eq_of_lt hx
  dsimp only
  rwa [hback]

/-- So did a string, and its length fits. -/
theorem readBlob_took {data : Bytes} (h : r.readBlob = (r', some data)) :
    FitsBlob data ∧ r.Took r' (contents (blobPieces data)) := by
  rw [readBlob_eq] at h
  obtain ⟨r₁, len, hread, h⟩ := readThen_inv (fun _ => by simp) h
  obtain ⟨hlen, htook₁⟩ := readUInt_took hread
  obtain ⟨rfl, htook₂⟩ := read_took h
  refine ⟨hlen, ?_⟩
  have hbytes : contents (blobPieces data) = encode 4 data.length ++ data :=
    congrArg _ (List.append_nil data)
  rw [hbytes]
  exact htook₁.trans ⟨htook₂.ok, htook₂.rest, htook₂.crc⟩

/-- A loop needs a reader that is fine only if it reads something. -/
theorem readList_took {n : ℕ} (hok : r.ok = true) {acc l : List Bytes}
    (h : readList n r acc = (r', some l)) :
    ∃ es : List Bytes, es.length = n ∧ (∀ e ∈ es, FitsBlob e) ∧
      r.Took r' (contents (es.flatMap blobPieces)) := by
  induction n generalizing r acc with
  | zero =>
    obtain ⟨rfl, -⟩ := Prod.mk.inj h
    exact ⟨[], rfl, fun e he => absurd he List.not_mem_nil, .nil hok⟩
  | succ n ih =>
    rw [readList_eq] at h
    obtain ⟨r₁, e, hread, h⟩ := readThen_inv (fun _ => by simp) h
    obtain ⟨he, htook₁⟩ := readBlob_took hread
    obtain ⟨es, hlen, hes, htook₂⟩ := ih htook₁.ok h
    refine ⟨e :: es, congrArg Nat.succ hlen, List.forall_mem_cons.mpr ⟨he, hes⟩, ?_⟩
    rw [List.flatMap_cons, contents_append]
    exact htook₁.trans htook₂

/-- So did the fields of a hash, as many as were asked for. -/
theorem readHash_took {n : ℕ} (hok : r.ok = true) {h h' : Dict Bytes}
    (hread : readHash n r h = (r', some h')) :
    ∃ kvs : List (Bytes × Bytes), kvs.length = n ∧
      (∀ kv ∈ kvs, FitsBlob kv.1 ∧ FitsBlob kv.2) ∧
      r.Took r' (contents (kvs.flatMap fieldPieces)) := by
  induction n generalizing r h with
  | zero =>
    obtain ⟨rfl, -⟩ := Prod.mk.inj hread
    exact ⟨[], rfl, fun e he => absurd he List.not_mem_nil, .nil hok⟩
  | succ n ih =>
    rw [readHash_eq] at hread
    obtain ⟨r₁, field, hfield, hread⟩ := readThen_inv (fun _ => by simp) hread
    obtain ⟨r₂, val, hval, hread⟩ := readThen_inv (fun _ => by simp) hread
    obtain ⟨hf, htook₁⟩ := readBlob_took hfield
    obtain ⟨hv, htook₂⟩ := readBlob_took hval
    obtain ⟨kvs, hlen, hkvs, htook₃⟩ := ih htook₂.ok hread
    refine ⟨(field, val) :: kvs, congrArg Nat.succ hlen,
      List.forall_mem_cons.mpr ⟨⟨hf, hv⟩, hkvs⟩, ?_⟩
    rw [List.flatMap_cons, fieldPieces, contents_append, contents_append]
    exact (htook₁.trans htook₂).trans htook₃

end Took

/-- So did the records of a sorted set. -/
theorem readZSet_took {n : ℕ} (hok : r.ok = true) {z z' : ZSet} {coins coins' : Coins}
    (hread : readZSet libc n r z coins = ((r', coins'), some z')) :
    ∃ cs : List (Bytes × Double), cs.length = n ∧ (∀ c ∈ cs, FitsBlob c.1) ∧
      r.Took r' (contents (cs.flatMap recordPieces)) := by
  induction n generalizing r z coins with
  | zero =>
    obtain ⟨hr, -⟩ := Prod.mk.inj hread
    obtain ⟨rfl, -⟩ := Prod.mk.inj hr
    exact ⟨[], rfl, fun e he => absurd he List.not_mem_nil, .nil hok⟩
  | succ n ih =>
    rw [readZSet_eq] at hread
    obtain ⟨r₁, score, hscore, hread⟩ := readThen_inv (fun _ => by simp) hread
    obtain ⟨r₂, member, hmember, hread⟩ := readThen_inv (fun _ => by simp) hread
    have htook₁ := readDouble_took hscore
    obtain ⟨hm, htook₂⟩ := readBlob_took hmember
    obtain ⟨cs, hlen, hcs, htook₃⟩ := ih htook₂.ok hread
    refine ⟨(member, score) :: cs, congrArg Nat.succ hlen,
      List.forall_mem_cons.mpr ⟨hm, hcs⟩, ?_⟩
    rw [List.flatMap_cons, recordPieces, contents_append, contents_cons]
    exact (htook₁.trans htook₂).trans htook₃

/-- What was read as a value of a type is one. -/
theorem readValue_took {type : ℕ} {coins coins' : Coins} {val : Value}
    (h : readValue libc type r coins = ((r', coins'), some val)) :
    ∃ v : RawValue, v.type = type ∧ v.Fits ∧ r.Took r' (contents v.pieces) := by
  match type with
  | 0 =>
    obtain ⟨hr, hval⟩ := Prod.mk.inj h
    obtain ⟨s, hs, -⟩ := Option.map_eq_some_iff.mp hval
    obtain ⟨hfits, htook⟩ := readBlob_took (Prod.ext (Prod.mk.inj hr).1 hs)
    exact ⟨.str s, rfl, hfits, htook⟩
  | 1 =>
    rw [readValue_list] at h
    obtain ⟨r₁, n, hcount, h⟩ := readThen_inv (fun _ => by simp) h
    obtain ⟨hn, htook₁⟩ := readUInt_took hcount
    obtain ⟨hr, hval⟩ := Prod.mk.inj h
    obtain ⟨l, hl, -⟩ := Option.map_eq_some_iff.mp hval
    obtain ⟨es, rfl, hes, htook₂⟩ := readList_took htook₁.ok (Prod.ext (Prod.mk.inj hr).1 hl)
    exact ⟨.list es, rfl, ⟨hn, hes⟩, htook₁.trans htook₂⟩
  | 2 =>
    rw [readValue_hash] at h
    obtain ⟨r₁, n, hcount, h⟩ := readThen_inv (fun _ => by simp) h
    obtain ⟨hn, htook₁⟩ := readUInt_took hcount
    obtain ⟨hr, hval⟩ := Prod.mk.inj h
    obtain ⟨h', hh', -⟩ := Option.map_eq_some_iff.mp hval
    obtain ⟨kvs, rfl, hkvs, htook₂⟩ := readHash_took htook₁.ok (Prod.ext (Prod.mk.inj hr).1 hh')
    exact ⟨.hash kvs, rfl, ⟨hn, hkvs⟩, htook₁.trans htook₂⟩
  | 3 =>
    rw [readValue_zset] at h
    obtain ⟨r₁, n, hcount, h⟩ := readThen_inv (fun _ => by simp) h
    obtain ⟨hn, htook₁⟩ := readUInt_took hcount
    obtain ⟨hr, hval⟩ := Prod.mk.inj h
    obtain ⟨z, hz, -⟩ := Option.map_eq_some_iff.mp hval
    -- the coins that were flipped leave nothing in the file
    obtain ⟨cs, rfl, hcs, htook₂⟩ := readZSet_took libc htook₁.ok (Prod.ext hr hz)
    exact ⟨.zset cs, rfl, ⟨hn, hcs⟩, htook₁.trans htook₂⟩
  -- an unknown type gives no value
  | _ + 4 => cases h

/-- **An entry that was loaded** stood there. -/
theorem loadEntry_took {now : Int64} {s s' : LoadState}
    (h : loadEntry libc now s = (s', true)) :
    ∃ e : FileEntry, e.Fits ∧ s.reader.Took s'.reader (contents e.pieces) := by
  rw [loadEntry_eq] at h
  obtain ⟨r₁, type, htype, h⟩ := readThen_inv (fun _ => by simp) h
  obtain ⟨r₂, expireAtMs, hdeadline, h⟩ := readThen_inv (fun _ => by simp) h
  obtain ⟨r₃, key, hkey, h⟩ := readThen_inv (fun _ => by simp) h
  rcases hvalue : readValue libc type r₃ s.coins with ⟨⟨r₄, coins⟩, _ | value⟩
  · rw [hvalue] at h
    cases h
  rw [hvalue] at h
  obtain rfl := (Prod.mk.inj h).1
  obtain ⟨-, htook₁⟩ := readUInt_took htype
  have htook₂ := readI64_took hdeadline
  obtain ⟨hk, htook₃⟩ := readBlob_took hkey
  obtain ⟨v, rfl, hv, htook₄⟩ := readValue_took libc hvalue
  refine ⟨⟨key, expireAtMs, v⟩, ⟨hk, hv⟩, ?_⟩
  rw [FileEntry.bytes_eq]
  exact htook₁.trans (htook₂.trans (htook₃.trans htook₄))

/-- So did as many entries as the loop has loaded. -/
theorem loadLoop_took {now : Int64} {n : ℕ} {s s' : LoadState} (hok : s.reader.ok = true)
    (h : loadLoop libc now n s = (s', true)) :
    ∃ es : List FileEntry, es.length = n ∧ (∀ e ∈ es, e.Fits) ∧
      s.reader.Took s'.reader (contents (es.flatMap FileEntry.pieces)) := by
  induction n generalizing s with
  | zero =>
    obtain ⟨rfl, -⟩ := Prod.mk.inj h
    exact ⟨[], rfl, fun e he => absurd he List.not_mem_nil, .nil hok⟩
  | succ n ih =>
    rw [loadLoop] at h
    rcases hentry : loadEntry libc now s with ⟨s₁, _ | _⟩
    · rw [hentry] at h
      cases h
    rw [hentry] at h
    obtain ⟨e, he, htook₁⟩ := loadEntry_took libc hentry
    obtain ⟨es, hlen, hes, htook₂⟩ := ih htook₁.ok h
    refine ⟨e :: es, congrArg Nat.succ hlen, List.forall_mem_cons.mpr ⟨he, hes⟩, ?_⟩
    rw [List.flatMap_cons, contents_append]
    exact htook₁.trans htook₂

/-- An accepted file begins with a body. -/
theorem rdbLoad_took {now : Int64} {file : Bytes} {d : Dict Obj} {coins : Coins}
    (h : (rdbLoad libc now (some file) d coins).2 = true) :
    ∃ (b : FileBody) (back : Bytes), file = b.bytes ++ back := by
  have hload : rdbLoad libc now (some file) d coins =
      ((rdbLoad libc now (some file) d coins).1, true) := Prod.ext rfl h
  rw [rdbLoad_eq] at hload
  obtain ⟨r₃, keyCount, hhead, hload⟩ := readThen_inv (fun _ => by simp) hload
  rw [readHead] at hhead
  obtain ⟨r₁, magic, hmagic, hhead⟩ := readThen_inv (fun _ => by simp) hhead
  split_ifs at hhead with hne
  · cases hhead
  obtain ⟨r₂, ver, hver, hhead⟩ := readThen_inv (fun _ => by simp) hhead
  split_ifs at hhead with hne'
  · cases hhead
  rcases hloop : loadLoop libc now keyCount ⟨r₃, d, coins⟩ with ⟨s, _ | _⟩
  · rw [hloop] at hload
    cases (Prod.mk.inj hload).2
  -- the four parts of the body, one behind the other
  obtain ⟨-, htook₁⟩ := read_took hmagic
  obtain ⟨-, htook₂⟩ := readUInt_took hver
  obtain ⟨hlt, htook₃⟩ := readUInt_took hhead
  obtain ⟨es, rfl, hes, htook₄⟩ := loadLoop_took libc htook₃.ok hloop
  rw [not_not.mp hne] at htook₁
  rw [not_not.mp hne'] at htook₂
  exact ⟨⟨es, hes, hlt⟩, s.reader.rest, (htook₁.trans (htook₂.trans (htook₃.trans htook₄))).rest⟩

/-- **Accepted files**: a body, its checksum, and then anything. -/
theorem rdbLoad_accepts_iff (now : Int64) (file : Bytes) (d : Dict Obj) (coins : Coins) :
    (rdbLoad libc now (some file) d coins).2 = true ↔
      ∃ (b : FileBody) (back : Bytes), file = b.bytes ++ (encode 8 b.checksum.toNat ++ back) := by
  constructor
  · intro h
    obtain ⟨b, back, rfl⟩ := rdbLoad_took libc h
    rw [(rdbLoad_body libc now b back d coins).1, decide_eq_true_eq] at h
    obtain ⟨hlen, hstored⟩ := h
    -- the eight bytes of the checksum are those of its number
    have hfront : encode 8 b.checksum.toNat = back.take 8 := by
      have height : (back.take 8).length = 8 := List.length_take_of_le hlen
      have hback := encode_decode (back.take 8)
      rwa [height, hstored] at hback
    refine ⟨b, back.drop 8, ?_⟩
    rw [hfront, List.take_append_drop]
  · rintro ⟨b, back, rfl⟩
    rw [(rdbLoad_body libc now b _ d coins).1, decide_eq_true_eq]
    have hlen : (encode 8 b.checksum.toNat).length = 8 := length_encode ..
    refine ⟨by rw [List.length_append, hlen]; omega, ?_⟩
    rw [List.take_left' hlen]
    exact decode_encode_of_lt (UInt64.toNat_lt _)

end Minired
