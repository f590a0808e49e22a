import Minired.Rdb

/-!
# The two codecs of the snapshot agree

`encodeEntry` is what `write_entry` writes when every write succeeds, and `snapshot` the
whole file. On the reading side each function has one lemma of the same form: standing in
front of what the writer wrote, it reads the value back, moves behind it and folds it into
its checksum.

Strings and lists come back as they were. A hash comes back as the table that its written
fields build, and a sorted set as the one its written records build (`reloadValue`), so
the agreement holds for every database whose lengths fit in 32 bits, `Sized`, and whose
sorted sets have as many records as their count says.
-/

namespace Minired

open LittleEndian KeyedList

/-- The checksum of two pieces is that of the second on top of that of the first. -/
theorem crc64Update_append (crc : UInt64) (a b : Bytes) :
    crc64Update crc (a ++ b) = crc64Update (crc64Update crc a) b :=
  List.foldl_append

/-! ### What is written -/

/-- The blob of a byte string; the length is cut to 32 bits. -/
def encodeBlob (data : Bytes) : Bytes :=
  encode 4 data.length.toUInt32.toNat ++ data.take data.length.toUInt32.toNat

/-- The value as it is written. -/
def encodeValue : Value → Bytes
  | .str s => encodeBlob s
  | .list l => encode 4 l.length.toUInt32.toNat ++ l.flatMap encodeBlob
  | .hash h =>
    let collected := dictEach h (collectCb RDB_BUFFER) []
    encode 4 collected.length.toUInt32.toNat ++
      collected.flatMap fun kv => encodeBlob kv.1 ++ encodeBlob kv.2
  | .zset z =>
    encode 4 (zsetCard z).toUInt32.toNat ++
      (zsetRecords z).flatMap fun c => encode 8 c.2.bits.toNat ++ encodeBlob c.1

/-- The entry as it is written. -/
def encodeEntry (key : Bytes) (obj : Obj) : Bytes :=
  encode 1 obj.value.type.toNat ++ (encode 8 obj.expireAtMs.toUInt64.toNat ++
    (encodeBlob key ++ encodeValue obj.value))

/-- Everything in front of the checksum. -/
def snapshotBody (d : Dict Obj) : Bytes :=
  RDB_MAGIC ++ (encode 4 RDB_VERSION.toNat ++ (encode 8 (dictSize d).toUInt64.toNat ++
    d.entries.flatMap fun e => encodeEntry e.key e.val))

/-- The whole file. -/
def snapshot (d : Dict Obj) : Bytes :=
  snapshotBody d ++ encode 8 (crc64Update 0 (snapshotBody d)).toNat

/-- The writer behind `data`, when nothing failed. -/
def Writer.put (w : Writer) (data : Bytes) : Writer :=
  { w with out := w.out ++ data, crc := crc64Update w.crc data }

/-- Writing does not change how much room there is. -/
@[simp] theorem Writer.put_room (w : Writer) (data : Bytes) : (w.put data).room = w.room := rfl

/-- Two pieces are written as one. -/
theorem Writer.put_put (w : Writer) (a b : Bytes) : (w.put a).put b = w.put (a ++ b) := by
  simp only [Writer.put, List.append_assoc, crc64Update_append]

/-- Nothing to write leaves the file alone. -/
theorem Writer.put_nil (w : Writer) : w.put [] = w := by
  simp [Writer.put, crc64Update]

section Write

variable {w : Writer} (hw : w.room = none)

include hw

/-- With room for everything `fwrite` writes its bytes and returns true. -/
theorem Writer.write_eq (data : Bytes) : w.write data = (w.put data, true) := by
  obtain ⟨out, room, crc⟩ := w
  obtain rfl : room = none := hw
  rfl

/-- A string is written as its length and its bytes. -/
theorem Writer.writeBlob_eq (data : Bytes) :
    w.writeBlob data = (w.put (encodeBlob data), true) := by
  have hw' : (w.put (encode 4 data.length.toUInt32.toNat)).room = none := hw
  rw [Writer.writeBlob, Writer.writeU32, Writer.write_eq hw]
  simp only [Writer.write_eq hw', Writer.put_put]
  rfl

/-- A loop of writes writes the concatenation. -/
theorem Writer.foldl_put {β : Type} (f : Writer → β → Writer) (g : β → Bytes)
    (hf : ∀ w : Writer, w.room = none → ∀ b, f w b = w.put (g b)) (bs : List β) :
    bs.foldl f w = w.put (bs.flatMap g) := by
  induction bs generalizing w with
  | nil => exact (Writer.put_nil w).symm
  | cons b bs ih =>
    rw [List.foldl_cons, hf w hw, ih ((Writer.put_room w _).trans hw), Writer.put_put,
      List.flatMap_cons]

/-- The writer of a value appends its encoding, type by type. -/
theorem writeValue_eq (v : Value) : writeValue w v = w.put (encodeValue v) := by
  have hput : ∀ data, (w.put data).room = none := fun _ => hw
  cases v with
  | str s => rw [writeValue, Writer.writeBlob_eq hw, encodeValue]
  | list l =>
    rw [writeValue, Writer.writeU32, Writer.write_eq hw, Writer.foldl_put (hput _) _ encodeBlob
      (fun w hw e => by rw [Writer.writeBlob_eq hw]), Writer.put_put, encodeValue]
  | hash h =>
    rw [writeValue, Writer.writeU32, Writer.write_eq hw]
    -- a field is two blobs, the value behind the field
    rw [Writer.foldl_put (hput _) _ (fun kv => encodeBlob kv.1 ++ encodeBlob kv.2)
      (fun w hw kv => by
        have hw' : (w.put (encodeBlob kv.1)).room = none := hw
        rw [Writer.writeBlob_eq hw, Writer.writeBlob_eq hw', Writer.put_put]), Writer.put_put,
      encodeValue]
  | zset z =>
    rw [writeValue, Writer.writeU32, Writer.write_eq hw]
    -- a record is the bits of the score, and the member
    rw [Writer.foldl_put (hput _) _ (fun c => encode 8 c.2.bits.toNat ++ encodeBlob c.1)
      (fun w hw c => by
        have hw' : (w.put (encode 8 c.2.bits.toNat)).room = none := hw
        rw [Writer.writeDouble, Writer.write_eq hw, Writer.writeBlob_eq hw', Writer.put_put]),
      Writer.put_put, encodeValue]

/-- An entry is appended whole: the type, the deadline, the key and the value. -/
theorem writeEntry_eq (key : Bytes) (obj : Obj) :
    writeEntry w key obj = (w.put (encodeEntry key obj), true) := by
  have hput : ∀ data, (w.put data).room = none := fun _ => hw
  simp only [writeEntry, Writer.writeU8, Writer.writeI64, Writer.write_eq hw,
    Writer.write_eq (hput _), Writer.writeBlob_eq (hput _), Writer.put_put,
    writeValue_eq (hput _), encodeEntry, List.append_assoc]

end Write

/-- Everything in front of the checksum, on a disk that takes it all. -/
theorem saveBody_eq (d : Dict Obj) :
    saveBody none d = ((⟨[], none, 0⟩ : Writer).put (snapshotBody d), true) := by
  -- the callback never fails, so it writes all entries
  have hcb : ∀ (w : Writer) (es : List (DictEntry Obj)), w.room = none →
      chainEach saveCb (w, true) es =
        ((w.put (es.flatMap fun e => encodeEntry e.key e.val), true), true) := by
    intro w es
    induction es generalizing w with
    | nil => exact fun _ => by rw [chainEach, List.flatMap_nil, Writer.put_nil]
    | cons e es ih =>
      intro hw
      have hw' : (w.put (encodeEntry e.key e.val)).room = none := hw
      rw [chainEach, saveCb, writeEntry_eq hw, List.flatMap_cons]
      simp only [ih _ hw', Writer.put_put]
  have hput : ∀ data, ((⟨[], none, 0⟩ : Writer).put data).room = none := fun _ => rfl
  have hnew : (⟨[], none, 0⟩ : Writer).room = none := rfl
  simp only [saveBody, Writer.writeU32, Writer.writeU64, Writer.write_eq hnew,
    Writer.write_eq (hput _), Writer.put_put, dictEach_eq, hcb _ _ (hput _), snapshotBody,
    List.append_assoc]

/-- The temporary file is not the file. -/
theorem tmpPath_ne (path : Bytes) : tmpPath path ≠ path := by
  intro h
  have hlen := congrArg List.length h
  simp [tmpPath, ascii] at hlen

/-- **`rdb_save`** with every file operation succeeding leaves the snapshot at the path. -/
theorem rdbSave_eq {fs : FileSys} (hopen : fs.canOpen = true) (hroom : fs.room = none)
    (hrename : fs.canRename = true) (d : Dict Obj) (path : Bytes) :
    (rdbSave fs d path).2 = true ∧ (rdbSave fs d path).1.files path = some (snapshot d) := by
  rw [rdbSave, hopen, hroom, saveBody_eq]
  simp only [Bool.not_true, Bool.false_eq_true, if_false, hrename, Writer.fwrite, Writer.put,
    List.nil_append, Function.update_of_ne (tmpPath_ne path).symm, Function.update_self, true_and]
  rfl

/-! ### What is read -/

/-- A reader in front of `data`, and everything fine so far. -/
def readerAt (data : Bytes) (crc : UInt64) : Reader := ⟨data, crc, true, false⟩

/-- `fread` of as many bytes as a field has takes the field off the front, and sums it up. -/
theorem read_append (data tail : Bytes) (crc : UInt64) {n : ℕ} (hn : data.length = n) :
    (readerAt (data ++ tail) crc).read n = (readerAt tail (crc64Update crc data), some data) := by
  subst hn
  have hlong : ¬(data ++ tail).length < data.length := by
    rw [List.length_append]
    omega
  simp [Reader.read, readerAt]

/-- A number of `w` bytes is read as it was written. -/
theorem readUInt_encode {w x : ℕ} (hx : x < 256 ^ w) (tail : Bytes) (crc : UInt64) :
    (readerAt (encode w x ++ tail) crc).readUInt w =
      (readerAt tail (crc64Update crc (encode w x)), some x) := by
  rw [Reader.readUInt, read_append _ _ _ (length_encode w x)]
  simp only [Option.map_some, decode_encode_of_lt hx]

/-- So is a deadline, whose 64 bits are written without a sign. -/
theorem readI64_encode (v : Int64) (tail : Bytes) (crc : UInt64) :
    (readerAt (encode 8 v.toUInt64.toNat ++ tail) crc).readI64 =
      (readerAt tail (crc64Update crc (encode 8 v.toUInt64.toNat)), some v) := by
  rw [Reader.readI64, readUInt_encode (UInt64.toNat_lt _)]
  show (_, some (UInt64.ofNat v.toUInt64.toNat).toInt64) = _
  rw [UInt64.ofNat_toNat]
  rfl

/-- So is a score, bit by bit: a NaN keeps its payload. -/
theorem readDouble_encode (v : Double) (tail : Bytes) (crc : UInt64) :
    (readerAt (encode 8 v.bits.toNat ++ tail) crc).readDouble =
      (readerAt tail (crc64Update crc (encode 8 v.bits.toNat)), some v) := by
  rw [Reader.readDouble, readUInt_encode (UInt64.toNat_lt _)]
  simp

/-- A length that fits in 32 bits together with the NUL. -/
def SmallBlob (data : Bytes) : Prop := data.length < 2 ^ 32 - 1

/-- Whether a length fits can be computed. -/
instance (data : Bytes) : Decidable (SmallBlob data) :=
  inferInstanceAs (Decidable (data.length < 2 ^ 32 - 1))

/-- A count below 2^32 survives the cut to 32 bits. -/
theorem toUInt32_toNat {n : ℕ} (hn : n < 2 ^ 32) : n.toUInt32.toNat = n :=
  Nat.mod_eq_of_lt hn

/-- The length in front of a string is its length, as long as 32 bits hold it. -/
theorem encodeBlob_eq {data : Bytes} (h : data.length < 2 ^ 32) :
    encodeBlob data = encode 4 data.length ++ data := by
  rw [encodeBlob, toUInt32_toNat h, List.take_length]

/-- A string is read back, and the reader is behind it. -/
theorem readBlob_encode {data : Bytes} (h : SmallBlob data) (tail : Bytes) (crc : UInt64) :
    (readerAt (encodeBlob data ++ tail) crc).readBlob =
      (readerAt tail (crc64Update crc (encodeBlob data)), some data) := by
  have hlt : data.length < 2 ^ 32 - 1 := h
  have hroom : ¬(data.length + 1) % 2 ^ 32 < min data.length (data ++ tail).length := by
    rw [Nat.mod_eq_of_lt (by omega)]
    omega
  rw [encodeBlob_eq (by omega), List.append_assoc, Reader.readBlob,
    readUInt_encode (by omega : data.length < 256 ^ 4), crc64Update_append]
  simp only [readerAt, hroom, decide_false, Bool.or_false]
  exact read_append _ _ _ rfl

/-- The elements of a list are read back one after the other, behind those read before. -/
theorem readList_encode (l : List Bytes) (hl : ∀ e ∈ l, SmallBlob e) (acc : List Bytes)
    (tail : Bytes) (crc : UInt64) :
    readList l.length (readerAt (l.flatMap encodeBlob ++ tail) crc) acc =
      (readerAt tail (crc64Update crc (l.flatMap encodeBlob)), some (acc ++ l)) := by
  induction l generalizing acc crc with
  | nil => simp [readList, crc64Update]
  | cons e l ih =>
    rw [List.flatMap_cons, List.append_assoc, List.length_cons, readList,
      readBlob_encode (hl e List.mem_cons_self), crc64Update_append]
    simp only [ih (fun e' he' => hl e' (List.mem_cons_of_mem e he')), List.append_assoc,
      List.singleton_append]

/-- The table that the written fields build. -/
def buildHash (h : Dict Bytes) (kvs : List (Bytes × Bytes)) : Dict Bytes :=
  kvs.foldl (fun h kv => htableSet h kv.1 kv.2) h

/-- The fields of a hash are read back and set one after the other. -/
theorem readHash_encode (kvs : List (Bytes × Bytes))
    (hkvs : ∀ kv ∈ kvs, SmallBlob kv.1 ∧ SmallBlob kv.2) (h : Dict Bytes) (tail : Bytes)
    (crc : UInt64) :
    readHash kvs.length
        (readerAt ((kvs.flatMap fun kv => encodeBlob kv.1 ++ encodeBlob kv.2) ++ tail) crc) h =
      (readerAt tail (crc64Update crc (kvs.flatMap fun kv => encodeBlob kv.1 ++ encodeBlob kv.2)),
        some (buildHash h kvs)) := by
  induction kvs generalizing h crc with
  | nil => simp [readHash, buildHash, crc64Update]
  | cons kv kvs ih =>
    obtain ⟨hk, hv⟩ := hkvs kv List.mem_cons_self
    rw [List.flatMap_cons, List.append_assoc, List.append_assoc, List.length_cons, readHash,
      readBlob_encode hk]
    simp only [readBlob_encode hv]
    -- the other fields go into the table that has the first one
    rw [ih (fun kv' hkv' => hkvs kv' (List.mem_cons_of_mem kv hkv')), crc64Update_append,
      crc64Update_append]
    rfl

variable (libc : Libc)

/-- The sorted set that the written records build. -/
def buildZSet (z : ZSet) (coins : Coins) (cs : List (Bytes × Double)) : ZSet × Coins :=
  cs.foldl (fun s c => zsetAdd libc s.1 c.1 c.2 s.2) (z, coins)

/-- The records of a sorted set are read back and added one after the other, with the coins of the
loop. -/
theorem readZSet_encode (cs : List (Bytes × Double)) (hcs : ∀ c ∈ cs, SmallBlob c.1) (z : ZSet)
    (coins : Coins) (tail : Bytes) (crc : UInt64) :
    readZSet libc cs.length
        (readerAt ((cs.flatMap fun c => encode 8 c.2.bits.toNat ++ encodeBlob c.1) ++ tail) crc)
        z coins =
      ((readerAt tail
          (crc64Update crc (cs.flatMap fun c => encode 8 c.2.bits.toNat ++ encodeBlob c.1)),
        (buildZSet libc z coins cs).2), some (buildZSet libc z coins cs).1) := by
  induction cs generalizing z coins crc with
  | nil => simp [readZSet, buildZSet, crc64Update]
  | cons c cs ih =>
    rw [List.flatMap_cons, List.append_assoc, List.append_assoc, List.length_cons, readZSet,
      readDouble_encode]
    simp only [readBlob_encode (hcs c List.mem_cons_self)]
    -- the other records go into the set that has the first one
    rw [ih (fun c' hc' => hcs c' (List.mem_cons_of_mem c hc')), crc64Update_append,
      crc64Update_append]
    rfl

/-- What comes back for a value. -/
def reloadValue (coins : Coins) : Value → Value × Coins
  | .str s => (.str s, coins)
  | .list l => (.list l, coins)
  | .hash h => (.hash (buildHash dictNew (dictEach h (collectCb RDB_BUFFER) [])), coins)
  | .zset z =>
    (.zset (buildZSet libc zsetNew coins (zsetRecords z)).1,
      (buildZSet libc zsetNew coins (zsetRecords z)).2)

/-- All lengths of the value fit in 32 bits, and a sorted set has as many records as its
count says. -/
def Value.Sized : Value → Prop
  | .str s => SmallBlob s
  | .list l => l.length < 2 ^ 32 ∧ ∀ e ∈ l, SmallBlob e
  | .hash h => ∀ e ∈ h.entries, SmallBlob e.key ∧ SmallBlob e.val
  | .zset z =>
    (zsetCard z).toUInt32.toNat = (zsetRecords z).length ∧ ∀ c ∈ zsetRecords z, SmallBlob c.1

/-- **A value is read back** as `reloadValue` says, if its lengths and counts are right. -/
theorem readValue_encode {v : Value} (hv : v.Sized) (coins : Coins) (tail : Bytes)
    (crc : UInt64) :
    readValue libc v.type.toNat (readerAt (encodeValue v ++ tail) crc) coins =
      ((readerAt tail (crc64Update crc (encodeValue v)), (reloadValue libc coins v).2),
        some (reloadValue libc coins v).1) := by
  cases v with
  | str s =>
    show readValue libc 0 _ coins = _
    rw [readValue, encodeValue, readBlob_encode hv]
    rfl
  | list l =>
    obtain ⟨hlen, hl⟩ := hv
    show readValue libc 1 _ coins = _
    rw [readValue, encodeValue, toUInt32_toNat hlen, List.append_assoc,
      readUInt_encode (by omega : l.length < 256 ^ 4)]
    simp only [readList_encode l hl, crc64Update_append]
    rfl
  | hash h =>
    show readValue libc 2 _ coins = _
    -- the count written is that of the fields collected, not that of the table
    obtain ⟨kvs, hkvs⟩ : ∃ kvs, kvs = dictEach h (collectCb RDB_BUFFER) [] := ⟨_, rfl⟩
    have hall : ∀ kv ∈ kvs, SmallBlob kv.1 ∧ SmallBlob kv.2 := by
      rw [hkvs, dictEach_collectCb]
      intro kv hkv
      obtain ⟨e, he, rfl⟩ := List.mem_map.mp (List.mem_of_mem_take hkv)
      exact hv e he
    have hlen : kvs.length < 256 ^ 4 := by
      rw [hkvs, dictEach_collectCb, List.length_take]
      exact lt_of_le_of_lt (Nat.min_le_left _ _) (by decide)
    rw [readValue, encodeValue, ← hkvs, toUInt32_toNat (by omega), List.append_assoc,
      readUInt_encode hlen]
    simp only [readHash_encode kvs hall, crc64Update_append, reloadValue, ← hkvs]
    rfl
  | zset z =>
    obtain ⟨hcount, hcs⟩ := hv
    show readValue libc 3 _ coins = _
    -- the count written is that of the sorted set, which the hypothesis makes that of the records
    have hlt : (zsetCard z).toUInt32.toNat < 256 ^ 4 := UInt32.toNat_lt _
    rw [readValue, encodeValue, List.append_assoc, readUInt_encode hlt]
    simp only [hcount, readZSet_encode libc _ hcs, crc64Update_append]
    rfl

/-- The entry is kept out of the dictionary: its deadline has passed at load time. -/
def Obj.dropped (now : Int64) (o : Obj) : Prop :=
  o.expireAtMs ≠ 0 ∧ now.toInt > o.expireAtMs.toInt

/-- Whether an entry is dropped can be computed. -/
instance (now : Int64) (o : Obj) : Decidable (o.dropped now) :=
  inferInstanceAs (Decidable (_ ∧ _))

/-- What loading one entry does to the dictionary and the coins. -/
def reloadEntry (now : Int64) (s : Dict Obj × Coins) (e : DictEntry Obj) : Dict Obj × Coins :=
  (if e.val.dropped now then s.1
    else dictSet s.1 e.key ⟨(reloadValue libc s.2 e.val.value).1, e.val.expireAtMs⟩,
    (reloadValue libc s.2 e.val.value).2)

/-- One entry is read off the front of the file and stored, unless its deadline has passed. -/
theorem loadEntry_encode (now : Int64) {e : DictEntry Obj} (hkey : SmallBlob e.key)
    (hval : e.val.value.Sized) (d : Dict Obj) (coins : Coins) (tail : Bytes) (crc : UInt64) :
    loadEntry libc now ⟨readerAt (encodeEntry e.key e.val ++ tail) crc, d, coins⟩ =
      (⟨readerAt tail (crc64Update crc (encodeEntry e.key e.val)),
        (reloadEntry libc now (d, coins) e).1, (reloadEntry libc now (d, coins) e).2⟩, true) := by
  have htype : e.val.value.type.toNat < 256 ^ 1 := UInt8.toNat_lt _
  rw [encodeEntry, List.append_assoc, List.append_assoc, List.append_assoc, loadEntry,
    readUInt_encode htype]
  -- deadline, key and value are read as they were written
  simp only [readI64_encode, readBlob_encode hkey, readValue_encode libc hval, crc64Update_append]
  rfl

/-- **The loop of `rdb_load`** reads the entries one after the other, each on top of what the ones
in front of it have left. -/
theorem loadLoop_encode (now : Int64) (es : List (DictEntry Obj))
    (hes : ∀ e ∈ es, SmallBlob e.key ∧ e.val.value.Sized) (d : Dict Obj) (coins : Coins)
    (tail : Bytes) (crc : UInt64) :
    loadLoop libc now es.length
        ⟨readerAt ((es.flatMap fun e => encodeEntry e.key e.val) ++ tail) crc, d, coins⟩ =
      (⟨readerAt tail (crc64Update crc (es.flatMap fun e => encodeEntry e.key e.val)),
        (es.foldl (reloadEntry libc now) (d, coins)).1,
        (es.foldl (reloadEntry libc now) (d, coins)).2⟩, true) := by
  induction es generalizing d coins crc with
  | nil => simp [loadLoop, crc64Update]
  | cons e es ih =>
    obtain ⟨hkey, hval⟩ := hes e List.mem_cons_self
    rw [List.flatMap_cons, List.append_assoc, List.length_cons, loadLoop,
      loadEntry_encode libc now hkey hval]
    simp only [ih (fun e' he' => hes e' (List.mem_cons_of_mem e he')), crc64Update_append]
    rfl

end Minired
