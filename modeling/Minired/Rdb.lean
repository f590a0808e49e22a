import Minired.Object
import Minired.Lib.LittleEndian

/-!
# Snapshots

`rdb.cpp` writes the database to a file and reads it back. A file starts with a magic
number, a version and the number of keys; the entries follow in the order of `dict_each`,
each a type, a deadline, a key and a value; the CRC of all that ends it.

A stream to be written knows how many bytes it still takes, `room`, so that a full disk can
be told from a good one. A stream to be read is the bytes that are left. The number that
comes before the records of a sorted set is its size, the number of records is what fits
into a buffer of 4096; the number that comes before a hash is that of the entries written.

`rdb_load` puts the entries into the dictionary one by one, and the checksum is compared
after the last one. Its reads of blobs compute the size of the buffer in 32 bits, and
`overrun` tells that one was written past its end.
-/

namespace Minired

open LittleEndian

/-! ### Checksum -/

/-- One shift of `crc64_init`. -/
def crc64Shift (crc : UInt64) : UInt64 :=
  if crc &&& 1 ≠ 0 then (crc >>> 1) ^^^ 0xad93d23594c935a9 else crc >>> 1

/-- The table that `crc64_init` builds. -/
def crc64Table (i : UInt64) : UInt64 := crc64Shift^[8] i

/-- One byte of `crc64_update`. -/
def crc64Byte (crc : UInt64) (b : UInt8) : UInt64 :=
  crc64Table ((crc ^^^ b.toUInt64) &&& 0xff) ^^^ (crc >>> 8)

/-- `crc64_update`. -/
def crc64Update (crc : UInt64) (data : Bytes) : UInt64 := data.foldl crc64Byte crc

/-! ### Writing -/

/-- `Writer`: what reached the file, how much more the stream takes (`none` when it takes
everything), and the running checksum. -/
structure Writer where
  out : Bytes
  room : Option ℕ
  crc : UInt64

/-- `fwrite`: the bytes that fit are written. -/
def Writer.fwrite (w : Writer) (data : Bytes) : Writer × Bool :=
  match w.room with
  | none => ({ w with out := w.out ++ data }, true)
  | some n =>
    ({ w with out := w.out ++ data.take n, room := some (n - data.length) },
      decide (data.length ≤ n))

/-- `Writer::write`. -/
def Writer.write (w : Writer) (data : Bytes) : Writer × Bool :=
  match w.fwrite data with
  | (w', true) => ({ w' with crc := crc64Update w.crc data }, true)
  | (w', false) => (w', false)

/-- `Writer::write_u8`. -/
def Writer.writeU8 (w : Writer) (v : UInt8) : Writer × Bool := w.write (encode 1 v.toNat)

/-- `Writer::write_u32`. -/
def Writer.writeU32 (w : Writer) (v : UInt32) : Writer × Bool := w.write (encode 4 v.toNat)

/-- `Writer::write_u64`. -/
def Writer.writeU64 (w : Writer) (v : UInt64) : Writer × Bool := w.write (encode 8 v.toNat)

/-- `Writer::write_i64`. -/
def Writer.writeI64 (w : Writer) (v : Int64) : Writer × Bool :=
  w.write (encode 8 v.toUInt64.toNat)

/-- `Writer::write_double`. -/
def Writer.writeDouble (w : Writer) (v : Double) : Writer × Bool :=
  w.write (encode 8 v.bits.toNat)

/-- `Writer::write_blob`, with the length that its callers pass, cut to 32 bits. -/
def Writer.writeBlob (w : Writer) (data : Bytes) : Writer × Bool :=
  let len := data.length.toUInt32
  match w.writeU32 len with
  | (w', true) => w'.write (data.take len.toNat)
  | (w', false) => (w', false)

/-- The size of the buffers on the stack of `write_entry`. -/
def RDB_BUFFER : ℕ := 4096

/-- The records of a sorted set: at most a buffer of them, the members as C strings. -/
def zsetRecords (z : ZSet) : List (Bytes × Double) :=
  let card := (zsetCard z).toUInt32
  (zsetRange z 0 ((card.toNat : Int) - 1) RDB_BUFFER).map fun c => (cstr c.1, c.2)

/-- The `switch` of `write_entry`. -/
def writeValue (w : Writer) : Value → Writer
  | .str s => (w.writeBlob s).1
  | .list l =>
    l.foldl (fun w e => (w.writeBlob e).1) (w.writeU32 l.length.toUInt32).1
  | .hash h =>
    let collected := dictEach h (collectCb RDB_BUFFER) []
    collected.foldl (fun w kv => ((w.writeBlob kv.1).1.writeBlob kv.2).1)
      (w.writeU32 collected.length.toUInt32).1
  | .zset z =>
    (zsetRecords z).foldl (fun w c => ((w.writeDouble c.2).1.writeBlob c.1).1)
      (w.writeU32 (zsetCard z).toUInt32).1

/-- `write_entry`. The results of the writes are not looked at, and it always succeeds. -/
def writeEntry (w : Writer) (key : Bytes) (obj : Obj) : Writer × Bool :=
  let w := (w.writeU8 obj.value.type).1
  let w := (w.writeI64 obj.expireAtMs).1
  let w := (w.writeBlob key).1
  (writeValue w obj.value, true)

/-- `save_cb`, on the writer and the flag of `SaveCtx`. -/
def saveCb (ctx : Writer × Bool) (key : Bytes) (obj : Obj) : (Writer × Bool) × Bool :=
  match writeEntry ctx.1 key obj with
  | (w, true) => ((w, ctx.2), true)
  | (w, false) => ((w, false), false)

/-- The files, and what the next snapshot will meet: whether the temporary file can be
opened, how many bytes the disk still takes, and whether the rename succeeds. -/
structure FileSys where
  files : Bytes → Option Bytes
  canOpen : Bool
  room : Option ℕ
  canRename : Bool

/-- An empty disk on which everything succeeds. -/
def FileSys.fresh : FileSys := ⟨fun _ => none, true, none, true⟩

/-- `RDB_MAGIC`. -/
def RDB_MAGIC : Bytes := ascii "MRDB"

/-- `RDB_VERSION`. -/
def RDB_VERSION : UInt32 := 1

/-- The name of the temporary file. -/
def tmpPath (path : Bytes) : Bytes := path ++ ascii ".tmp"

/-- Everything that `rdb_save` writes through its `Writer`. -/
def saveBody (room : Option ℕ) (d : Dict Obj) : Writer × Bool :=
  let w : Writer := ⟨[], room, 0⟩
  let w := (w.write RDB_MAGIC).1
  let w := (w.writeU32 RDB_VERSION).1
  let w := (w.writeU64 (dictSize d).toUInt64).1
  dictEach d saveCb (w, true)

/-- `rdb_save`. -/
def rdbSave (fs : FileSys) (d : Dict Obj) (path : Bytes) : FileSys × Bool :=
  let tmp := tmpPath path
  if !fs.canOpen then (fs, false)
  else
    let (w, ok) := saveBody fs.room d
    if !ok then ({ fs with files := Function.update fs.files tmp none, room := w.room }, false)
    else
      -- the checksum bypasses the writer, and its result is not looked at
      let w := (w.fwrite (encode 8 w.crc.toNat)).1
      let fs := { fs with files := Function.update fs.files tmp (some w.out), room := w.room }
      if !fs.canRename then (fs, false)
      else
        ({ fs with
            files := Function.update (Function.update fs.files path (some w.out)) tmp none }, true)

/-! ### Reading -/

/-- `Reader`: the bytes left, the running checksum, whether all reads succeeded so far, and
whether a blob was stored past the end of its buffer. -/
structure Reader where
  rest : Bytes
  crc : UInt64
  ok : Bool
  overrun : Bool

/-- `Reader::read`. A short `fread` has taken what there was. -/
def Reader.read (r : Reader) (len : ℕ) : Reader × Option Bytes :=
  if !r.ok then (r, none)
  else if r.rest.length < len then ({ r with rest := [], ok := false }, none)
  else
    ({ r with rest := r.rest.drop len, crc := crc64Update r.crc (r.rest.take len) },
      some (r.rest.take len))

/-- `Reader::read_u8`, `read_u32` and `read_u64`, by their width. -/
def Reader.readUInt (r : Reader) (width : ℕ) : Reader × Option ℕ :=
  match r.read width with
  | (r', data) => (r', data.map decode)

/-- `Reader::read_i64`. -/
def Reader.readI64 (r : Reader) : Reader × Option Int64 :=
  match r.readUInt 8 with
  | (r', v) => (r', v.map fun n => n.toUInt64.toInt64)

/-- `Reader::read_double`. -/
def Reader.readDouble (r : Reader) : Reader × Option Double :=
  match r.readUInt 8 with
  | (r', v) => (r', v.map fun n => ⟨n.toUInt64⟩)

/-- `Reader::read_blob`. The buffer has `len + 1` bytes, in 32-bit arithmetic, and `fread`
stores what there is, up to `len`. -/
def Reader.readBlob (r : Reader) : Reader × Option Bytes :=
  match r.readUInt 4 with
  | (r, none) => (r, none)
  | (r, some len) =>
    let size := (len + 1) % 2 ^ 32
    let stored := min len r.rest.length
    ({ r with overrun := r.overrun || decide (size < stored) }).read len

/-- The loop that reads the elements of a list. -/
def readList : ℕ → Reader → List Bytes → Reader × Option (List Bytes)
  | 0, r, l => (r, some l)
  | n + 1, r, l =>
    match r.readBlob with
    | (r, none) => (r, none)
    | (r, some elem) => readList n r (l ++ [elem])

/-- The loop that reads the fields of a hash. -/
def readHash : ℕ → Reader → Dict Bytes → Reader × Option (Dict Bytes)
  | 0, r, h => (r, some h)
  | n + 1, r, h =>
    match r.readBlob with
    | (r, none) => (r, none)
    | (r, some field) =>
      match r.readBlob with
      | (r, none) => (r, none)
      | (r, some val) => readHash n r (htableSet h field val)

variable (libc : Libc)

/-- The loop that reads the members of a sorted set. -/
def readZSet : ℕ → Reader → ZSet → Coins → (Reader × Coins) × Option ZSet
  | 0, r, z, coins => ((r, coins), some z)
  | n + 1, r, z, coins =>
    match r.readDouble with
    | (r, none) => ((r, coins), none)
    | (r, some score) =>
      match r.readBlob with
      | (r, none) => ((r, coins), none)
      | (r, some member) =>
        let (z, coins) := zsetAdd libc z member score coins
        readZSet n r z coins

/-- The `switch` of `rdb_load`. -/
def readValue (type : ℕ) (r : Reader) (coins : Coins) : (Reader × Coins) × Option Value :=
  match type with
  | 0 =>
    match r.readBlob with
    | (r, s) => ((r, coins), s.map .str)
  | 1 =>
    match r.readUInt 4 with
    | (r, none) => ((r, coins), none)
    | (r, some count) =>
      match readList count r [] with
      | (r, l) => ((r, coins), l.map .list)
  | 2 =>
    match r.readUInt 4 with
    | (r, none) => ((r, coins), none)
    | (r, some count) =>
      match readHash count r dictNew with
      | (r, h) => ((r, coins), h.map .hash)
  | 3 =>
    match r.readUInt 4 with
    | (r, none) => ((r, coins), none)
    | (r, some count) =>
      match readZSet libc count r zsetNew coins with
      | (rc, z) => (rc, z.map .zset)
  | _ => ((r, coins), none)

/-- Everything `rdb_load` changes. -/
structure LoadState where
  reader : Reader
  dict : Dict Obj
  coins : Coins

/-- One iteration of the loop over the keys; false when `rdb_load` returns from it. -/
def loadEntry (now : Int64) (s : LoadState) : LoadState × Bool :=
  match s.reader.readUInt 1 with
  | (r, none) => ({ s with reader := r }, false)
  | (r, some type) =>
    match r.readI64 with
    | (r, none) => ({ s with reader := r }, false)
    | (r, some expireAtMs) =>
      match r.readBlob with
      | (r, none) => ({ s with reader := r }, false)
      | (r, some key) =>
        match readValue libc type r s.coins with
        | ((r, coins), none) => ({ s with reader := r, coins := coins }, false)
        | ((r, coins), some value) =>
          let obj : Obj := ⟨value, expireAtMs⟩
          -- the deadline is compared the other way than in `check_expiry`
          let dict :=
            if expireAtMs ≠ 0 ∧ now.toInt > expireAtMs.toInt then s.dict
            else dictSet s.dict key obj
          (⟨r, dict, coins⟩, true)

/-- The loop over the keys. -/
def loadLoop (now : Int64) : ℕ → LoadState → LoadState × Bool
  | 0, s => (s, true)
  | n + 1, s =>
    match loadEntry libc now s with
    | (s, true) => loadLoop now n s
    | (s, false) => (s, false)

/-- `rdb_load`, on the content of the file, if there is one. -/
def rdbLoad (now : Int64) (file : Option Bytes) (d : Dict Obj) (coins : Coins) :
    LoadState × Bool :=
  match file with
  | none => (⟨⟨[], 0, true, false⟩, d, coins⟩, false)
  | some content =>
    match (⟨content, 0, true, false⟩ : Reader).read 4 with
    | (r, none) => (⟨r, d, coins⟩, false)
    | (r, some magic) =>
      if magic ≠ RDB_MAGIC then (⟨r, d, coins⟩, false)
      else
        match r.readUInt 4 with
        | (r, none) => (⟨r, d, coins⟩, false)
        | (r, some ver) =>
          if ver ≠ RDB_VERSION.toNat then (⟨r, d, coins⟩, false)
          else
            match r.readUInt 8 with
            | (r, none) => (⟨r, d, coins⟩, false)
            | (r, some keyCount) =>
              match loadLoop libc now keyCount ⟨r, d, coins⟩ with
              | (s, false) => (s, false)
              | (s, true) =>
                -- the stored checksum is read behind the reader's back
                if s.reader.rest.length < 8 then (s, false)
                else
                  ({ s with reader := { s.reader with rest := s.reader.rest.drop 8 } },
                    decide (decode (s.reader.rest.take 8) = s.reader.crc.toNat))

end Minired
