import Minired.RdbTables

/-!
# Rejected snapshots

`rdb_load` stores every entry as soon as it has read it, and it finds out that the file is
bad only later: at a read that comes short, at an unknown type, at the checksum. What it has
stored by then stays in the dictionary.

`fileEntries` says which entries that are, by a scan of the bytes that knows nothing of the
dictionary, of checksums and of the objects that are built: the entries that are whole, up to
the first place where the file is damaged. `Follows` ties each reading function to its scan,
and `rdbLoad_stores` is the result: each key has the object of the last such entry with this
key that was not dropped, or what it had before. A rejected file has left the dictionary alone
if and only if all of these objects are the ones that were there (`rdb_rejected_iff`).
-/

namespace Minired

open LittleEndian KeyedList

/-! ### The entries of a file -/

/-- Why there are fewer entries than announced: the file ends, or has an unknown type; or a
blob of `2 ^ 32 - 1` bytes is announced, and the bytes behind are stored into the buffer of
no bytes that is made for it. -/
inductive Stop
  | damaged
  | overrun
  deriving DecidableEq

/-- A scan takes what it finds from the front of the bytes. -/
abbrev Scan := StateT Bytes (Except Stop)

/-- A value as it lies in the file. -/
inductive RawValue
  | str (s : Bytes)
  | list (l : List Bytes)
  | hash (kvs : List (Bytes × Bytes))
  | zset (cs : List (Bytes × Double))

/-- An entry as it lies in the file. -/
structure FileEntry where
  key : Bytes
  expireAtMs : Int64
  value : RawValue

/-- The next `n` bytes. -/
def scanBytes (n : ℕ) : Scan Bytes := fun bs =>
  if bs.length < n then .error .damaged else .ok (bs.take n, bs.drop n)

/-- A number of `width` bytes. -/
def scanUInt (width : ℕ) : Scan ℕ := do return decode (← scanBytes width)

/-- The data of a blob of `len` bytes. -/
def scanData (len : ℕ) : Scan Bytes := fun bs =>
  if len = 2 ^ 32 - 1 ∧ bs ≠ [] then .error .overrun else scanBytes len bs

/-- A blob. -/
def scanBlob : Scan Bytes := do scanData (← scanUInt 4)

/-- A field of a hash with its value. -/
def scanField : Scan (Bytes × Bytes) := do return (← scanBlob, ← scanBlob)

/-- A member of a sorted set, behind its score. -/
def scanRecord : Scan (Bytes × Double) := do
  let bits ← scanUInt 8
  let member ← scanBlob
  return (member, ⟨bits.toUInt64⟩)

/-- Items one after the other. -/
def scanMany {α : Type} (item : Scan α) : ℕ → Scan (List α)
  | 0 => return []
  | n + 1 => do
    let a ← item
    let as ← scanMany item n
    return a :: as

/-- A value of the given type; what has many items has their number in front. -/
def scanValue : ℕ → Scan RawValue
  | 0 => do return .str (← scanBlob)
  | 1 => do return .list (← scanMany scanBlob (← scanUInt 4))
  | 2 => do return .hash (← scanMany scanField (← scanUInt 4))
  | 3 => do return .zset (← scanMany scanRecord (← scanUInt 4))
  | _ => throw .damaged

/-- An entry. -/
def scanEntry : Scan FileEntry := do
  let type ← scanUInt 1
  let expireAtMs ← scanUInt 8
  let key ← scanBlob
  let value ← scanValue type
  return ⟨key, expireAtMs.toUInt64.toInt64, value⟩

/-- Up to `n` entries, those that are whole, and why there are no more. -/
def scanEntries : ℕ → Bytes → List FileEntry × Option Stop
  | 0, _ => ([], none)
  | n + 1, bs =>
    match scanEntry bs with
    | .ok (e, bs) => (e :: (scanEntries n bs).1, (scanEntries n bs).2)
    | .error stop => ([], some stop)

/-- The number of entries that the head of the file announces. -/
def scanHead : Scan ℕ := do
  if (← scanBytes 4) ≠ RDB_MAGIC then throw .damaged
  if (← scanUInt 4) ≠ RDB_VERSION.toNat then throw .damaged
  scanUInt 8

/-- The whole entries in front of the first damage, and why there are no more. -/
def fileEntries : Option Bytes → List FileEntry × Option Stop
  | none => ([], some .damaged)
  | some content =>
    match scanHead content with
    | .ok (keyCount, bs) => scanEntries keyCount bs
    | .error stop => ([], some stop)

/-! ### What they are in the dictionary -/

variable (libc : Libc)

/-- The value that is built. -/
def RawValue.load (coins : Coins) : RawValue → Value × Coins
  | .str s => (.str s, coins)
  | .list l => (.list l, coins)
  | .hash kvs => (.hash (buildHash dictNew kvs), coins)
  | .zset cs =>
    (.zset (buildZSet libc zsetNew coins cs).1, (buildZSet libc zsetNew coins cs).2)

/-- The objects that entries put into the dictionary, in their order, without the dropped
ones. -/
def stored (now : Int64) : Coins → List FileEntry → List (Bytes × Obj)
  | _, [] => []
  | coins, e :: es =>
    let (value, coins) := e.value.load libc coins
    let obj : Obj := ⟨value, e.expireAtMs⟩
    if obj.dropped now then stored now coins es else (e.key, obj) :: stored now coins es

/-- Equal values: equal strings, equal lists, hashes with the same fields, and sorted sets
with the same table, the same length and the same members along the chain. -/
def Value.Same : Value → Value → Prop
  | .str s, .str t => s = t
  | .list l, .list k => l = k
  | .hash g, .hash h => ∀ f, dictGet g f = dictGet h f
  | .zset y, .zset z =>
    (∀ m, dictGet y.ht m = dictGet z.ht m) ∧ zsetCard y = zsetCard z ∧
      ∀ C, y.sl.Reads C ↔ z.sl.Reads C
  | _, _ => False

/-- Equal values and equal deadlines. -/
def Obj.Same (o p : Obj) : Prop := o.value.Same p.value ∧ o.expireAtMs = p.expireAtMs

/-- An object is the same as itself. -/
theorem Obj.Same.refl (o : Obj) : o.Same o := by
  refine ⟨?_, rfl⟩
  cases o.value with
  | str s => exact rfl
  | list l => exact rfl
  | hash h => exact fun _ => rfl
  | zset z => exact ⟨fun _ => rfl, rfl, fun _ => Iff.rfl⟩

/-! ### Readers that follow scans -/

/-- A reader in front of `bs`, and everything fine so far. -/
structure Reader.At (r : Reader) (bs : Bytes) : Prop where
  rest : r.rest = bs
  ok : r.ok = true
  overrun : r.overrun = false

/-- What became of the reader where the scan finds a value, where it finds damage, and where
it finds that a buffer is overrun. -/
def Follows {β : Type} (scan : Except Stop (β × Bytes)) (r : Reader) (done : β → Prop)
    (failed : Prop) : Prop :=
  match scan with
  | .ok (b, bs) => r.At bs ∧ done b
  | .error .damaged => r.overrun = false ∧ failed
  | .error .overrun => r.overrun = true

/-- What follows a scan does so when less is asked of either end. -/
theorem Follows.mono {β : Type} {scan : Except Stop (β × Bytes)} {r : Reader}
    {done done' : β → Prop} {failed failed' : Prop} (h : Follows scan r done failed)
    (hdone : ∀ b, done b → done' b) (hfailed : failed → failed') :
    Follows scan r done' failed' := by
  rcases scan with (_ | _) | ⟨b, bs⟩
  · exact ⟨h.1, hfailed h.2⟩
  · exact h
  · exact ⟨h.1, hdone b h.2⟩

/-- The caller of a reading function returns when it came short. -/
def readThen {α σ : Type} (fail : Reader → σ) (p : Reader × Option α) (f : Reader → α → σ) : σ :=
  match p with
  | (r, none) => fail r
  | (r, some a) => f r a

/-- A reading function, and the rest of its caller. -/
theorem Follows.bind {α β γ σ : Type} {scan : Scan β} {more : β → Scan γ} {bs : Bytes}
    {p : Reader × Option α} {val : β → α}
    (h : Follows (scan bs) p.1 (fun b => p.2 = some (val b)) (p.2 = none))
    (rd : σ → Reader) (fail : Reader → σ) (hfail : ∀ r, rd (fail r) = r)
    {f : Reader → α → σ} (hsticky : ∀ r a, r.overrun = true → (rd (f r a)).overrun = true)
    (done : σ → γ → Prop) (failed : σ → Prop) (hfailed : ∀ r, failed (fail r))
    (hmore : ∀ b bs' r, scan bs = .ok (b, bs') → r.At bs' →
      Follows (more b bs') (rd (f r (val b))) (done (f r (val b))) (failed (f r (val b)))) :
    Follows ((scan >>= more) bs) (rd (readThen fail p f)) (done (readThen fail p f))
      (failed (readThen fail p f)) := by
  obtain ⟨r, o⟩ := p
  have hbind : (scan >>= more) bs = (scan bs >>= fun x => more x.1 x.2) := rfl
  rw [hbind]
  rcases hscan : scan bs with (_ | _) | ⟨b, bs'⟩
  · rw [hscan] at h
    -- damage: the reading function came short, and its caller returns
    obtain ⟨hover, rfl⟩ := h
    refine ⟨?_, hfailed r⟩
    rwa [readThen, hfail]
  · rw [hscan] at h
    cases o with
    | none =>
      show (rd (fail r)).overrun = true
      rwa [hfail]
    | some a => exact hsticky r a h
  · rw [hscan] at h
    -- the value is there, and the caller goes on behind it
    obtain ⟨hat, rfl⟩ := h
    exact hmore b bs' r hscan hat

/-- A caller that did not return early has been given a value. -/
theorem readThen_inv {α σ : Type} {fail : Reader → σ} {p : Reader × Option α}
    {f : Reader → α → σ} {x : σ} (hfail : ∀ r, fail r ≠ x) (h : readThen fail p f = x) :
    ∃ r a, p = (r, some a) ∧ f r a = x := by
  obtain ⟨r, _ | a⟩ := p
  · exact absurd h (hfail r)
  · exact ⟨r, a, rfl, h⟩

/-- An overrun stays. -/
theorem readThen_overrun {α σ : Type} {p : Reader × Option α} (hp : p.1.overrun = true)
    (rd : σ → Reader) (fail : Reader → σ) (hfail : ∀ r, rd (fail r) = r) {f : Reader → α → σ}
    (hf : ∀ r a, r.overrun = true → (rd (f r a)).overrun = true) :
    (rd (readThen fail p f)).overrun = true := by
  obtain ⟨r, _ | a⟩ := p
  · rw [readThen, hfail]
    exact hp
  · exact hf r a hp

/-- An overrun stays one, whatever is read. -/
theorem read_overrun {r : Reader} (hr : r.overrun = true) (n : ℕ) :
    (r.read n).1.overrun = true := by
  rw [Reader.read]
  split
  · exact hr
  · split <;> exact hr

/-- `fread` follows the scan of as many bytes. -/
theorem read_follows {r : Reader} {bs : Bytes} (h : r.At bs) (n : ℕ) :
    Follows (scanBytes n bs) (r.read n).1 (fun data => (r.read n).2 = some data)
      ((r.read n).2 = none) := by
  obtain ⟨rfl, hok, hover⟩ := h
  rw [Reader.read, hok, scanBytes]
  simp only [Bool.not_true, Bool.false_eq_true, if_false]
  split
  · exact ⟨hover, rfl⟩
  · exact ⟨⟨rfl, rfl, hover⟩, rfl⟩

/-- No number ends an overrun. -/
theorem readUInt_overrun {r : Reader} (hr : r.overrun = true) (width : ℕ) :
    (r.readUInt width).1.overrun = true :=
  read_overrun hr width

/-- What is made of the value that was found. -/
theorem Follows.map {β δ : Type} {scan : Scan β} {bs : Bytes} {r : Reader} {g : β → δ}
    {done : δ → Prop} {failed : Prop}
    (h : Follows (scan bs) r (fun b => done (g b)) failed) :
    Follows ((g <$> scan) bs) r done failed := by
  have hmap : (g <$> scan) bs = (scan bs >>= fun x => pure (g x.1, x.2)) := rfl
  rw [hmap]
  rcases hscan : scan bs with (_ | _) | ⟨b, bs'⟩ <;> rw [hscan] at h <;> exact h

/-- A number is read where one is scanned. -/
theorem readUInt_follows {r : Reader} {bs : Bytes} (h : r.At bs) (width : ℕ) :
    Follows (scanUInt width bs) (r.readUInt width).1
      (fun n => (r.readUInt width).2 = some n) ((r.readUInt width).2 = none) := by
  refine Follows.map ((read_follows h width).mono (fun data hdata => ?_) fun hnone => ?_)
  · exact congrArg (Option.map decode) hdata
  · exact congrArg (Option.map decode) hnone

/-- A number of so many bytes is below the power of 256. -/
theorem scanUInt_lt {width n : ℕ} {bs bs' : Bytes} (h : scanUInt width bs = .ok (n, bs')) :
    n < 256 ^ width := by
  by_cases hshort : bs.length < width
  · have herr : scanUInt width bs = .error .damaged := by
      show (scanBytes width bs >>= fun x => pure (decode x.1, x.2)) = _
      rw [scanBytes, if_pos hshort]
      rfl
    rw [herr] at h
    cases h
  · have hok : scanUInt width bs = .ok (decode (bs.take width), bs.drop width) := by
      show (scanBytes width bs >>= fun x => pure (decode x.1, x.2)) = _
      rw [scanBytes, if_neg hshort]
      rfl
    rw [hok] at h
    cases h
    -- as many bytes as the number is wide
    have hlt := decode_lt (bs.take width)
    rwa [List.length_take, Nat.min_eq_left (by omega)] at hlt

/-- The reader of a string, cut at its length. -/
theorem readBlob_eq (r : Reader) :
    r.readBlob = readThen (fun r => (r, none)) (r.readUInt 4) fun r len =>
      let stored := min len r.rest.length
      ({ r with overrun := r.overrun || decide ((len + 1) % 2 ^ 32 < stored) } : Reader).read
        len := by
  rw [Reader.readBlob]
  rcases r.readUInt 4 with ⟨r', _ | len⟩ <;> rfl

/-- No string ends an overrun. -/
theorem readBlob_overrun {r : Reader} (hr : r.overrun = true) : r.readBlob.1.overrun = true := by
  rw [readBlob_eq]
  refine readThen_overrun (readUInt_overrun hr 4) Prod.fst _ (fun _ => rfl)
    fun r len hr => read_overrun ?_ len
  rw [hr]
  rfl

/-- A string is read where one is scanned, and there is an overrun where its length wraps. -/
theorem readBlob_follows {r : Reader} {bs : Bytes} (h : r.At bs) :
    Follows (scanBlob bs) r.readBlob.1 (fun data => r.readBlob.2 = some data)
      (r.readBlob.2 = none) := by
  rw [readBlob_eq]
  refine (readUInt_follows h 4).bind Prod.fst _ (fun _ => rfl)
    (fun r len hr => read_overrun (by simp [hr]) len) (fun p data => p.2 = some data)
    (fun p => p.2 = none) (fun _ => rfl) fun len bs' r hlen hr => ?_
  -- the length is a number of 32 bits
  have hlt : len < 2 ^ 32 := scanUInt_lt hlen
  obtain ⟨rfl, hok, hover⟩ := hr
  rw [scanData]
  by_cases hbad : len = 2 ^ 32 - 1 ∧ r.rest ≠ []
  · -- the buffer has no room at all, and a byte is stored
    obtain ⟨rfl, hrest⟩ := hbad
    rw [if_pos ⟨rfl, hrest⟩]
    have hpos := List.length_pos_iff.mpr hrest
    refine read_overrun ?_ _
    simp only [Bool.or_eq_true, decide_eq_true_eq]
    right
    omega
  · rw [if_neg hbad]
    -- any other length leaves room for as many bytes as are stored
    have hfits : ¬(len + 1) % 2 ^ 32 < min len r.rest.length := by
      by_cases hmax : len = 2 ^ 32 - 1
      · have hnil : r.rest = [] := by
          by_contra hrest
          exact hbad ⟨hmax, hrest⟩
        rw [hnil, List.length_nil]
        omega
      · rw [Nat.mod_eq_of_lt (by omega)]
        omega
    -- the data is read as any bytes are
    apply read_follows
    refine ⟨rfl, hok, ?_⟩
    simp only [hover, hfits, decide_false, Bool.or_false]

/-! ### The loops -/

/-- One round of the loop over the elements of a list. -/
theorem readList_eq (n : ℕ) (r : Reader) (l : List Bytes) :
    readList (n + 1) r l =
      readThen (fun r => (r, none)) r.readBlob fun r elem => readList n r (l ++ [elem]) := by
  rw [readList]
  rcases r.readBlob with ⟨r', _ | elem⟩ <;> rfl

/-- No list ends an overrun. -/
theorem readList_overrun (n : ℕ) {r : Reader} (hr : r.overrun = true) (l : List Bytes) :
    (readList n r l).1.overrun = true := by
  induction n generalizing r l with
  | zero => exact hr
  | succ n ih =>
    rw [readList_eq]
    exact readThen_overrun (readBlob_overrun hr) Prod.fst _ (fun _ => rfl) fun r _ hr => ih hr _

/-- The elements are read where so many strings are scanned. -/
theorem readList_follows (n : ℕ) {r : Reader} {bs : Bytes} (h : r.At bs) (l : List Bytes) :
    Follows (scanMany scanBlob n bs) (readList n r l).1
      (fun l' => (readList n r l).2 = some (l ++ l')) ((readList n r l).2 = none) := by
  induction n generalizing r bs l with
  | zero => exact ⟨h, congrArg some (List.append_nil l).symm⟩
  | succ n ih =>
    rw [readList_eq]
    refine (readBlob_follows h).bind Prod.fst _ (fun _ => rfl)
      (fun r _ hr => readList_overrun n hr _) (fun p l' => p.2 = some (l ++ l'))
      (fun p => p.2 = none) (fun _ => rfl) fun elem bs' r _ hr => ?_
    refine Follows.map ((ih hr _).mono (fun l' hl' => ?_) id)
    rw [hl', List.append_assoc, List.singleton_append]

/-- One round of the loop over the fields of a hash. -/
theorem readHash_eq (n : ℕ) (r : Reader) (h : Dict Bytes) :
    readHash (n + 1) r h =
      readThen (fun r => (r, none)) r.readBlob fun r field =>
        readThen (fun r => (r, none)) r.readBlob fun r val =>
          readHash n r (htableSet h field val) := by
  rw [readHash]
  rcases r.readBlob with ⟨r', _ | field⟩
  · rfl
  · simp only [readThen]
    rcases r'.readBlob with ⟨r'', _ | val⟩ <;> rfl

/-- No hash ends an overrun. -/
theorem readHash_overrun (n : ℕ) {r : Reader} (hr : r.overrun = true) (h : Dict Bytes) :
    (readHash n r h).1.overrun = true := by
  induction n generalizing r h with
  | zero => exact hr
  | succ n ih =>
    rw [readHash_eq]
    refine readThen_overrun (readBlob_overrun hr) Prod.fst _ (fun _ => rfl) fun r field hr => ?_
    exact readThen_overrun (readBlob_overrun hr) Prod.fst _ (fun _ => rfl) fun r val hr => ih hr _

/-- The fields are read where so many pairs are scanned, and set one after the other. -/
theorem readHash_follows (n : ℕ) {r : Reader} {bs : Bytes} (hr : r.At bs) (h : Dict Bytes) :
    Follows (scanMany scanField n bs) (readHash n r h).1
      (fun kvs => (readHash n r h).2 = some (buildHash h kvs)) ((readHash n r h).2 = none) := by
  induction n generalizing r bs h with
  | zero => exact ⟨hr, rfl⟩
  | succ n ih =>
    -- a field, its value, and then the other fields
    have hscan : scanMany scanField (n + 1) = scanBlob >>= fun field => scanBlob >>= fun val =>
        (fun kvs => (field, val) :: kvs) <$> scanMany scanField n := by
      simp only [scanMany, scanField, bind_assoc, bind_pure_comp, bind_map_left]
    rw [readHash_eq, hscan]
    refine (readBlob_follows hr).bind Prod.fst _ (fun _ => rfl)
      (fun r field hr => readThen_overrun (readBlob_overrun hr) Prod.fst _ (fun _ => rfl)
        fun r val hr => readHash_overrun n hr _)
      (fun p kvs => p.2 = some (buildHash h kvs)) (fun p => p.2 = none) (fun _ => rfl)
      fun field bs' r _ hr => ?_
    refine (readBlob_follows hr).bind Prod.fst _ (fun _ => rfl)
      (fun r val hr => readHash_overrun n hr _)
      (fun p kvs => p.2 = some (buildHash h kvs)) (fun p => p.2 = none) (fun _ => rfl)
      fun val bs' r _ hr => ?_
    exact Follows.map (ih hr _)

/-- What is returned where sorted sets are built. -/
abbrev WithCoins (α : Type) := (Reader × Coins) × Option α

/-- Where the reader is then. -/
abbrev WithCoins.reader {α : Type} (p : WithCoins α) : Reader := p.1.1

/-- No score ends an overrun. -/
theorem readDouble_overrun {r : Reader} (hr : r.overrun = true) :
    r.readDouble.1.overrun = true :=
  readUInt_overrun hr 8

/-- One round of the loop over the records of a sorted set. -/
theorem readZSet_eq (n : ℕ) (r : Reader) (z : ZSet) (coins : Coins) :
    readZSet libc (n + 1) r z coins =
      readThen (fun r => ((r, coins), none)) r.readDouble fun r score =>
        readThen (fun r => ((r, coins), none)) r.readBlob fun r member =>
          readZSet libc n r (zsetAdd libc z member score coins).1
            (zsetAdd libc z member score coins).2 := by
  rw [readZSet]
  rcases r.readDouble with ⟨r', _ | score⟩
  · rfl
  · simp only [readThen]
    rcases r'.readBlob with ⟨r'', _ | member⟩ <;> rfl

/-- No sorted set ends an overrun. -/
theorem readZSet_overrun (n : ℕ) {r : Reader} (hr : r.overrun = true) (z : ZSet)
    (coins : Coins) : (readZSet libc n r z coins).1.1.overrun = true := by
  induction n generalizing r z coins with
  | zero => exact hr
  | succ n ih =>
    rw [readZSet_eq]
    refine readThen_overrun (readDouble_overrun hr) WithCoins.reader _
      (fun _ => rfl) fun r score hr => ?_
    exact readThen_overrun (readBlob_overrun hr) WithCoins.reader _ (fun _ => rfl)
      fun r member hr => ih hr _ _

/-- The records are read where so many are scanned, and added one after the other. -/
theorem readZSet_follows (n : ℕ) {r : Reader} {bs : Bytes} (hr : r.At bs) (z : ZSet)
    (coins : Coins) :
    Follows (scanMany scanRecord n bs) (readZSet libc n r z coins).1.1
      (fun cs => (readZSet libc n r z coins).1.2 = (buildZSet libc z coins cs).2 ∧
        (readZSet libc n r z coins).2 = some (buildZSet libc z coins cs).1)
      ((readZSet libc n r z coins).2 = none) := by
  induction n generalizing r bs z coins with
  | zero => exact ⟨hr, rfl, rfl⟩
  | succ n ih =>
    -- a score, its member, and then the other members
    have hscan : scanMany scanRecord (n + 1) = scanUInt 8 >>= fun bits => scanBlob >>= fun member =>
        (fun cs => (member, (⟨bits.toUInt64⟩ : Double)) :: cs) <$> scanMany scanRecord n := by
      simp only [scanMany, scanRecord, bind_assoc, bind_pure_comp, bind_map_left]
    -- the bits of the score are those of the number
    have hdouble : Follows (scanUInt 8 bs) r.readDouble.1
        (fun bits => r.readDouble.2 = some ⟨bits.toUInt64⟩) (r.readDouble.2 = none) :=
      (readUInt_follows hr 8).mono
        (fun bits hbits => congrArg (Option.map fun n : ℕ => (⟨n.toUInt64⟩ : Double)) hbits)
        fun hnone => congrArg (Option.map fun n : ℕ => (⟨n.toUInt64⟩ : Double)) hnone
    rw [readZSet_eq, hscan]
    refine hdouble.bind WithCoins.reader _ (fun _ => rfl)
      (fun r score hr => readThen_overrun (readBlob_overrun hr)
        WithCoins.reader _ (fun _ => rfl)
        fun r member hr => readZSet_overrun libc n hr _ _)
      (fun p cs => p.1.2 = (buildZSet libc z coins cs).2 ∧
        p.2 = some (buildZSet libc z coins cs).1) (fun p => p.2 = none) (fun _ => rfl)
      fun bits bs' r _ hr => ?_
    refine (readBlob_follows hr).bind WithCoins.reader _ (fun _ => rfl)
      (fun r member hr => readZSet_overrun libc n hr _ _)
      (fun p cs => p.1.2 = (buildZSet libc z coins cs).2 ∧
        p.2 = some (buildZSet libc z coins cs).1) (fun p => p.2 = none) (fun _ => rfl)
      fun member bs' r _ hr => ?_
    exact Follows.map (ih hr _ _)

/-- The branch of a list: its count, and then the loop. -/
theorem readValue_list (r : Reader) (coins : Coins) :
    readValue libc 1 r coins = readThen (fun r => ((r, coins), none)) (r.readUInt 4) fun r count =>
      (((readList count r []).1, coins), (readList count r []).2.map .list) := by
  rw [readValue]
  rcases r.readUInt 4 with ⟨r', _ | count⟩ <;> rfl

/-- The branch of a hash. -/
theorem readValue_hash (r : Reader) (coins : Coins) :
    readValue libc 2 r coins = readThen (fun r => ((r, coins), none)) (r.readUInt 4) fun r count =>
      (((readHash count r dictNew).1, coins), (readHash count r dictNew).2.map .hash) := by
  rw [readValue]
  rcases r.readUInt 4 with ⟨r', _ | count⟩ <;> rfl

/-- The branch of a sorted set. -/
theorem readValue_zset (r : Reader) (coins : Coins) :
    readValue libc 3 r coins = readThen (fun r => ((r, coins), none)) (r.readUInt 4) fun r count =>
      ((readZSet libc count r zsetNew coins).1,
        (readZSet libc count r zsetNew coins).2.map .zset) := by
  rw [readValue]
  rcases r.readUInt 4 with ⟨r', _ | count⟩ <;> rfl

/-- No value ends an overrun. -/
theorem readValue_overrun (type : ℕ) {r : Reader} (hr : r.overrun = true) (coins : Coins) :
    (readValue libc type r coins).1.1.overrun = true := by
  match type with
  | 0 => exact readBlob_overrun hr
  | 1 =>
    rw [readValue_list]
    exact readThen_overrun (readUInt_overrun hr 4) (@WithCoins.reader Value) _
      (fun _ => rfl) fun r count hr => readList_overrun count hr []
  | 2 =>
    rw [readValue_hash]
    exact readThen_overrun (readUInt_overrun hr 4) (@WithCoins.reader Value) _
      (fun _ => rfl) fun r count hr => readHash_overrun count hr dictNew
  | 3 =>
    rw [readValue_zset]
    exact readThen_overrun (readUInt_overrun hr 4) (@WithCoins.reader Value) _
      (fun _ => rfl) fun r count hr => readZSet_overrun libc count hr zsetNew coins
  -- an unknown type reads nothing
  | _ + 4 => exact hr

/-- What the `switch` returns is what the value is built to. -/
def Loads (coins : Coins) (p : WithCoins Value) (v : RawValue) : Prop :=
  p.1.2 = (v.load libc coins).2 ∧ p.2 = some (v.load libc coins).1

/-- **A value** is loaded where one of its type is scanned. -/
theorem readValue_follows (type : ℕ) {r : Reader} {bs : Bytes} (hr : r.At bs) (coins : Coins) :
    Follows (scanValue type bs) (readValue libc type r coins).1.1
      (Loads libc coins (readValue libc type r coins))
      ((readValue libc type r coins).2 = none) := by
  match type with
  | 0 =>
    -- a string ends where its blob does
    refine Follows.map ((readBlob_follows hr).mono (fun s hs => ⟨rfl, ?_⟩) fun hnone => ?_)
    · exact congrArg (Option.map Value.str) hs
    · exact congrArg (Option.map Value.str) hnone
  | 1 =>
    -- a count that is cut off makes the loop overrun the end, too
    rw [readValue_list]
    refine (readUInt_follows hr 4).bind (@WithCoins.reader Value) _ (fun _ => rfl)
      (fun r count hr => readList_overrun count hr [])
      (Loads libc coins) (fun p => p.2 = none) (fun _ => rfl) fun count bs' r _ hr => ?_
    refine Follows.map ((readList_follows count hr []).mono (fun l hl => ⟨rfl, ?_⟩) fun hnone => ?_)
    · exact congrArg (Option.map Value.list) hl
    · exact congrArg (Option.map Value.list) hnone
  | 2 =>
    rw [readValue_hash]
    refine (readUInt_follows hr 4).bind (@WithCoins.reader Value) _ (fun _ => rfl)
      (fun r count hr => readHash_overrun count hr dictNew)
      (Loads libc coins) (fun p => p.2 = none) (fun _ => rfl) fun count bs' r _ hr => ?_
    refine Follows.map ((readHash_follows count hr dictNew).mono (fun h hh => ⟨rfl, ?_⟩)
      fun hnone => ?_)
    · exact congrArg (Option.map Value.hash) hh
    · exact congrArg (Option.map Value.hash) hnone
  | 3 =>
    rw [readValue_zset]
    refine (readUInt_follows hr 4).bind (@WithCoins.reader Value) _ (fun _ => rfl)
      (fun r count hr => readZSet_overrun libc count hr zsetNew coins)
      (Loads libc coins) (fun p => p.2 = none) (fun _ => rfl) fun count bs' r _ hr => ?_
    refine Follows.map ((readZSet_follows libc count hr zsetNew coins).mono
      (fun cs hcs => ⟨hcs.1, ?_⟩) fun hnone => ?_)
    · exact congrArg (Option.map Value.zset) hcs.2
    · exact congrArg (Option.map Value.zset) hnone
  | _ + 4 => exact ⟨hr.overrun, rfl⟩

/-! ### The entries -/

/-- What loading an entry does to the dictionary and the coins. -/
def FileEntry.store (now : Int64) (s : Dict Obj × Coins) (e : FileEntry) : Dict Obj × Coins :=
  let (value, coins) := e.value.load libc s.2
  let obj : Obj := ⟨value, e.expireAtMs⟩
  (if obj.dropped now then s.1 else dictSet s.1 e.key obj, coins)

/-- Where the reader is behind an iteration. -/
abbrev entryReader (p : LoadState × Bool) : Reader := p.1.reader

/-- The end of an iteration, behind the `switch`. -/
def storeValue (now : Int64) (s : LoadState) (key : Bytes) (expireAtMs : Int64) :
    WithCoins Value → LoadState × Bool
  | ((r, coins), none) => ({ s with reader := r, coins := coins }, false)
  | ((r, coins), some value) =>
    let obj : Obj := ⟨value, expireAtMs⟩
    (⟨r, if obj.dropped now then s.dict else dictSet s.dict key obj, coins⟩, true)

/-- Storing does not move the reader. -/
theorem storeValue_reader (now : Int64) (s : LoadState) (key : Bytes) (expireAtMs : Int64)
    (p : WithCoins Value) : (storeValue now s key expireAtMs p).1.reader = p.1.1 := by
  obtain ⟨⟨r, coins⟩, _ | value⟩ := p <;> rfl

/-- One entry, cut where each field has been read. -/
theorem loadEntry_eq (now : Int64) (s : LoadState) :
    loadEntry libc now s =
      readThen (fun r => ({ s with reader := r }, false)) (s.reader.readUInt 1) fun r type =>
        readThen (fun r => ({ s with reader := r }, false)) r.readI64 fun r expireAtMs =>
          readThen (fun r => ({ s with reader := r }, false)) r.readBlob fun r key =>
            storeValue now s key expireAtMs (readValue libc type r s.coins) := by
  rw [loadEntry]
  -- each reading function in turn, and where it came short both sides return
  rcases s.reader.readUInt 1 with ⟨r, _ | type⟩
  · rfl
  simp only [readThen]
  rcases r.readI64 with ⟨r, _ | expireAtMs⟩
  · rfl
  simp only
  rcases r.readBlob with ⟨r, _ | key⟩
  · rfl
  simp only
  rcases readValue libc type r s.coins with ⟨⟨r, coins⟩, _ | value⟩ <;> rfl

/-- A deadline is read where eight bytes are scanned. -/
theorem readI64_follows {r : Reader} {bs : Bytes} (h : r.At bs) :
    Follows (scanUInt 8 bs) r.readI64.1 (fun n => r.readI64.2 = some n.toUInt64.toInt64)
      (r.readI64.2 = none) :=
  (readUInt_follows h 8).mono
    (fun _ hn => congrArg (Option.map fun n : ℕ => n.toUInt64.toInt64) hn)
    fun hnone => congrArg (Option.map fun n : ℕ => n.toUInt64.toInt64) hnone

/-- No deadline ends an overrun. -/
theorem readI64_overrun {r : Reader} (hr : r.overrun = true) : r.readI64.1.overrun = true :=
  readUInt_overrun hr 8

/-- Storing a value does not end one either. -/
theorem storeValue_overrun (now : Int64) (s : LoadState) (key : Bytes) (expireAtMs : Int64)
    (type : ℕ) {r : Reader} (hr : r.overrun = true) :
    (storeValue now s key expireAtMs (readValue libc type r s.coins)).1.reader.overrun = true := by
  rw [storeValue_reader]
  exact readValue_overrun libc type hr s.coins

/-- The dictionary after an iteration in which an entry was read. -/
def Stores (now : Int64) (s : LoadState) (p : LoadState × Bool) (e : FileEntry) : Prop :=
  (p.1.dict, p.1.coins) = e.store libc now (s.dict, s.coins) ∧ p.2 = true

/-- The dictionary after an iteration in which none was. -/
def Keeps (s : LoadState) (p : LoadState × Bool) : Prop := p.1.dict = s.dict ∧ p.2 = false

/-- **An entry** is stored where one is scanned, and where none is the dictionary is kept. -/
theorem loadEntry_follows (now : Int64) {s : LoadState} {bs : Bytes} (hs : s.reader.At bs) :
    Follows (scanEntry bs) (loadEntry libc now s).1.reader
      (Stores libc now s (loadEntry libc now s)) (Keeps s (loadEntry libc now s)) := by
  obtain ⟨rd, hrd⟩ : ∃ rd : LoadState × Bool → Reader, rd = fun p => p.1.reader := ⟨_, rfl⟩
  obtain ⟨fail, hfail⟩ : ∃ fail : Reader → LoadState × Bool,
      fail = fun r => ({ s with reader := r }, false) := ⟨_, rfl⟩
  -- an early return leaves the reader where it is, and keeps the dictionary
  have hrdfail : ∀ r, rd (fail r) = r := fun r => by rw [hrd, hfail]
  have hkeep : ∀ r, Keeps s (fail r) := fun r => by rw [hfail]; exact ⟨rfl, rfl⟩
  -- an overrun stays through what is still to be read, from the back to the front
  have hvalue : ∀ (type : ℕ) (expireAtMs : Int64) (r : Reader) (key : Bytes), r.overrun = true →
      (rd (storeValue now s key expireAtMs (readValue libc type r s.coins))).overrun = true := by
    intro type expireAtMs r key hr
    rw [hrd]
    exact storeValue_overrun libc now s key expireAtMs type hr
  have hkey : ∀ (type : ℕ) (r : Reader) (expireAtMs : Int64), r.overrun = true →
      (rd (readThen fail r.readBlob fun r key =>
        storeValue now s key expireAtMs (readValue libc type r s.coins))).overrun = true :=
    fun type r expireAtMs hr =>
      readThen_overrun (readBlob_overrun hr) rd fail hrdfail (hvalue type expireAtMs)
  have hdeadline : ∀ (r : Reader) (type : ℕ), r.overrun = true →
      (rd (readThen fail r.readI64 fun r expireAtMs => readThen fail r.readBlob fun r key =>
        storeValue now s key expireAtMs (readValue libc type r s.coins))).overrun = true :=
    fun r type hr => readThen_overrun (readI64_overrun hr) rd fail hrdfail (hkey type)
  -- type, deadline, key and value, as the scan finds them
  rw [loadEntry_eq, ← hfail, ← congrFun hrd]
  refine (readUInt_follows hs 1).bind rd fail hrdfail hdeadline (Stores libc now s) (Keeps s) hkeep
    fun type _ r _ hr => ?_
  refine (readI64_follows hr).bind rd fail hrdfail (hkey type) (Stores libc now s) (Keeps s) hkeep
    fun expireAtMs _ r _ hr => ?_
  refine (readBlob_follows hr).bind rd fail hrdfail (hvalue type _) (Stores libc now s) (Keeps s)
    hkeep fun key _ r _ hr => ?_
  have hread := readValue_follows libc type hr s.coins
  subst hrd
  simp only [storeValue_reader]
  obtain ⟨⟨⟨r', coins⟩, o⟩, hp⟩ : ∃ p, p = readValue libc type r s.coins := ⟨_, rfl⟩
  rw [← hp] at hread ⊢
  refine Follows.map (hread.mono (fun v hv => ?_) fun hnone => ?_)
  · obtain ⟨rfl, rfl⟩ := hv
    exact ⟨rfl, rfl⟩
  · -- a value that is damaged or of an unknown type
    obtain rfl : o = none := hnone
    exact ⟨rfl, rfl⟩

/-- No entry ends an overrun. -/
theorem loadEntry_overrun (now : Int64) {s : LoadState} (hs : s.reader.overrun = true) :
    (loadEntry libc now s).1.reader.overrun = true := by
  rw [loadEntry_eq]
  refine readThen_overrun (readUInt_overrun hs 1) entryReader _
    (fun _ => rfl) fun r type hr => ?_
  refine readThen_overrun (readI64_overrun hr) entryReader _
    (fun _ => rfl) fun r expireAtMs hr => ?_
  exact readThen_overrun (readBlob_overrun hr) entryReader _
    (fun _ => rfl) fun r key hr => storeValue_overrun libc now s key expireAtMs type hr

/-- The loop does not end one. -/
theorem loadLoop_overrun (now : Int64) (n : ℕ) {s : LoadState} (hs : s.reader.overrun = true) :
    (loadLoop libc now n s).1.reader.overrun = true := by
  induction n generalizing s with
  | zero => exact hs
  | succ n ih =>
    have hentry := loadEntry_overrun libc now hs
    rw [loadLoop]
    rcases hp : loadEntry libc now s with ⟨s', _ | _⟩
    · rw [hp] at hentry
      exact hentry
    · rw [hp] at hentry
      -- the loop goes on with what it has read beyond the end
      exact ih hentry

/-- **The loop over the keys** stores the whole entries that a scan finds. -/
theorem loadLoop_stores (now : Int64) (n : ℕ) {s : LoadState} {bs : Bytes}
    (hs : s.reader.At bs) :
    if (scanEntries n bs).2 = some .overrun then
      (loadLoop libc now n s).1.reader.overrun = true
    else
      (loadLoop libc now n s).1.reader.overrun = false ∧
        (loadLoop libc now n s).1.dict =
          ((scanEntries n bs).1.foldl (FileEntry.store libc now) (s.dict, s.coins)).1 := by
  induction n generalizing s bs with
  | zero =>
    rw [if_neg (by simp [scanEntries])]
    exact ⟨hs.overrun, rfl⟩
  | succ n ih =>
    have hentry := loadEntry_follows libc now hs
    rw [scanEntries, loadLoop]
    obtain ⟨⟨s', more⟩, hp⟩ : ∃ p, p = loadEntry libc now s := ⟨_, rfl⟩
    rw [← hp] at hentry ⊢
    rcases hscan : scanEntry bs with (_ | _) | ⟨e, bs'⟩
    · rw [hscan] at hentry
      -- the damage is in this entry, and the loop ends
      obtain ⟨hover, hdict, hmore⟩ := hentry
      obtain rfl : more = false := hmore
      rw [if_neg (by simp)]
      exact ⟨hover, hdict⟩
    · rw [hscan] at hentry
      rw [if_pos rfl]
      -- a read beyond the end, which no later iteration takes back
      cases more with
      | false => exact hentry
      | true => exact loadLoop_overrun libc now n hentry
    · rw [hscan] at hentry
      obtain ⟨hat, hstore, hmore⟩ := hentry
      obtain rfl : more = true := hmore
      -- a whole entry is stored, and the loop goes on from there
      have hrest := ih hat
      rw [hstore] at hrest
      exact hrest

/-! ### The file -/

/-- The checks of the head, with the number of keys behind them. -/
def readHead (r : Reader) : Reader × Option ℕ :=
  readThen (fun r => (r, none)) (r.read 4) fun r magic =>
    if magic ≠ RDB_MAGIC then (r, none)
    else readThen (fun r => (r, none)) (r.readUInt 4) fun r ver =>
      if ver ≠ RDB_VERSION.toNat then (r, none) else r.readUInt 8

/-- The comparison of the checksums behind the loop. -/
def checkCrc : LoadState × Bool → LoadState × Bool
  | (s, false) => (s, false)
  | (s, true) =>
    if s.reader.rest.length < 8 then (s, false)
    else
      ({ s with reader := { s.reader with rest := s.reader.rest.drop 8 } },
        decide (decode (s.reader.rest.take 8) = s.reader.crc.toNat))

/-- `rdb_load` of a file that is there: the head, the loop over the entries, and the checksum. -/
theorem rdbLoad_eq (now : Int64) (content : Bytes) (d : Dict Obj) (coins : Coins) :
    rdbLoad libc now (some content) d coins =
      readThen (fun r => (⟨r, d, coins⟩, false)) (readHead ⟨content, 0, true, false⟩)
        fun r keyCount => checkCrc (loadLoop libc now keyCount ⟨r, d, coins⟩) := by
  rw [rdbLoad, readHead]
  -- the checks of the head in the order of the code
  rcases Reader.read ⟨content, 0, true, false⟩ 4 with ⟨r, _ | magic⟩
  · rfl
  simp only [readThen]
  by_cases hmagic : magic ≠ RDB_MAGIC
  · simp only [if_pos hmagic]
  simp only [if_neg hmagic]
  rcases r.readUInt 4 with ⟨r, _ | ver⟩
  · rfl
  simp only
  by_cases hver : ver ≠ RDB_VERSION.toNat
  · simp only [if_pos hver]
  simp only [if_neg hver]
  rcases r.readUInt 8 with ⟨r, _ | keyCount⟩
  · rfl
  simp only
  rcases loadLoop libc now keyCount ⟨r, d, coins⟩ with ⟨s, _ | _⟩ <;> rfl

/-- The head is read where one is scanned: the magic, the version and the number of keys. -/
theorem readHead_follows {r : Reader} {bs : Bytes} (hr : r.At bs) :
    Follows (scanHead bs) (readHead r).1 (fun n => (readHead r).2 = some n)
      ((readHead r).2 = none) := by
  refine (read_follows hr 4).bind Prod.fst _ (fun _ => rfl) (fun r magic hr => ?_)
    (fun p n => p.2 = some n) (fun p => p.2 = none) (fun _ => rfl) fun magic bs' r _ hr => ?_
  · split
    · exact hr
    · refine readThen_overrun (readUInt_overrun hr 4) Prod.fst _ (fun _ => rfl) fun r ver hr => ?_
      split
      · exact hr
      · exact readUInt_overrun hr 8
  -- the version is read behind the right magic only
  by_cases hmagic : magic ≠ RDB_MAGIC
  · rw [if_pos hmagic, if_pos hmagic]
    exact ⟨hr.overrun, rfl⟩
  rw [if_neg hmagic, if_neg hmagic]
  refine (readUInt_follows hr 4).bind Prod.fst _ (fun _ => rfl) (fun r ver hr => ?_)
    (fun p n => p.2 = some n) (fun p => p.2 = none) (fun _ => rfl) fun ver bs' r _ hr => ?_
  · split
    · exact hr
    · exact readUInt_overrun hr 8
  -- the number of keys is read behind the right version only
  by_cases hver : ver ≠ RDB_VERSION.toNat
  · rw [if_pos hver, if_pos hver]
    exact ⟨hr.overrun, rfl⟩
  · rw [if_neg hver, if_neg hver]
    exact readUInt_follows hr 8

/-- The test of the checksum changes the answer, and not the dictionary. -/
theorem checkCrc_keeps (p : LoadState × Bool) :
    (checkCrc p).1.reader.overrun = p.1.reader.overrun ∧ (checkCrc p).1.dict = p.1.dict := by
  obtain ⟨s, _ | _⟩ := p
  · exact ⟨rfl, rfl⟩
  · rw [checkCrc]
    split <;> exact ⟨rfl, rfl⟩

/-- **`rdb_load` stores the whole entries in front of the first damage**, whatever it returns
in the end. -/
theorem rdbLoad_stores (now : Int64) (file : Option Bytes) (d : Dict Obj) (coins : Coins) :
    if (fileEntries file).2 = some .overrun then
      (rdbLoad libc now file d coins).1.reader.overrun = true
    else
      (rdbLoad libc now file d coins).1.reader.overrun = false ∧
        (rdbLoad libc now file d coins).1.dict =
          ((fileEntries file).1.foldl (FileEntry.store libc now) (d, coins)).1 := by
  cases file with
  | none =>
    rw [if_neg (by simp [fileEntries])]
    exact ⟨rfl, rfl⟩
  | some content =>
    have hhead := readHead_follows (r := ⟨content, 0, true, false⟩) ⟨rfl, rfl, rfl⟩
    rw [rdbLoad_eq, fileEntries]
    obtain ⟨⟨r, o⟩, hp⟩ : ∃ p, p = readHead ⟨content, 0, true, false⟩ := ⟨_, rfl⟩
    rw [← hp] at hhead ⊢
    rcases hscan : scanHead content with (_ | _) | ⟨keyCount, bs⟩
    · rw [hscan] at hhead
      -- the head is damaged, so nothing is stored
      obtain ⟨hover, hnone⟩ := hhead
      obtain rfl : o = none := hnone
      rw [if_neg (by simp)]
      exact ⟨hover, rfl⟩
    · rw [hscan] at hhead
      rw [if_pos rfl]
      cases o with
      | none => exact hhead
      | some keyCount =>
        rw [readThen, (checkCrc_keeps _).1]
        exact loadLoop_overrun libc now keyCount hhead
    · rw [hscan] at hhead
      -- the loop has the number of keys, and the checksum is compared afterwards
      obtain ⟨hat, hsome⟩ := hhead
      obtain rfl : o = some keyCount := hsome
      rw [readThen, (checkCrc_keeps _).1, (checkCrc_keeps _).2]
      exact loadLoop_stores libc now keyCount (s := ⟨r, d, coins⟩) hat

/-- The object that a key has when entries have been stored: the last one of this key, or
the one it had. -/
theorem dictGet_foldl_store (now : Int64) (es : List FileEntry) {d : Dict Obj} (hd : d.WF)
    (coins : Coins) (key : Bytes) :
    dictGet (es.foldl (FileEntry.store libc now) (d, coins)).1 key =
      ((lookup Prod.fst key (stored libc now coins es).reverse).map Prod.snd).or
        (dictGet d key) := by
  induction es generalizing d coins with
  | nil => rfl
  | cons e es ih =>
    rw [List.foldl_cons, stored]
    -- an entry that is dropped stores nothing
    by_cases hdrop : Obj.dropped now ⟨(e.value.load libc coins).1, e.expireAtMs⟩
    · have hstore : e.store libc now (d, coins) = (d, (e.value.load libc coins).2) := by
        simp only [FileEntry.store, if_pos hdrop]
      rw [hstore, ih hd]
      simp only [if_pos hdrop]
    · have hstore : e.store libc now (d, coins) =
          (dictSet d e.key ⟨(e.value.load libc coins).1, e.expireAtMs⟩,
            (e.value.load libc coins).2) := by
        simp only [FileEntry.store, if_neg hdrop]
      rw [hstore, ih (wf_dictSet hd _ _), dictGet_dictSet hd]
      simp only [if_neg hdrop, List.reverse_cons, lookup, List.find?_append]
      rw [Option.map_or, Option.or_assoc]
      -- the entries behind win, then this one, then the dictionary before
      congr 1
      by_cases hkey : e.key = key
      · subst hkey
        simp [Function.update_self]
      · rw [Function.update_of_ne (Ne.symm hkey)]
        simp [hkey]

/-- **A rejected snapshot.** For every file, also for each that `rdb_load` rejects: nothing was
stored past a buffer and every key of the dictionary has the value and the deadline that it
had before, if and only if the entries do not lead to a buffer that is overrun, and each whole
entry in front of the first damage that is not dropped, and is the last of its key, has the
value and the deadline that the key had in the dictionary before. -/
theorem rdb_rejected_iff (now : Int64) (file : Option Bytes) {d : Dict Obj} (hd : d.WF)
    (coins : Coins) :
    let load := rdbLoad libc now file d coins
    (load.1.reader.overrun = false ∧
        ∀ key, Option.Rel Obj.Same (dictGet load.1.dict key) (dictGet d key)) ↔
      (fileEntries file).2 ≠ some .overrun ∧
        ∀ key o, lookup Prod.fst key (stored libc now coins (fileEntries file).1).reverse =
            some (key, o) →
          Option.Rel Obj.Same (some o) (dictGet d key) := by
  intro load
  have hload := rdbLoad_stores libc now file d coins
  by_cases hover : (fileEntries file).2 = some .overrun
  · rw [if_pos hover] at hload
    constructor
    · rintro ⟨hfalse, -⟩
      rw [hload] at hfalse
      exact absurd hfalse Bool.true_eq_false_eq_False
    · rintro ⟨hne, -⟩
      exact absurd hover hne
  · rw [if_neg hover] at hload
    -- no overrun: every key has what the last entry of it says
    obtain ⟨hfine, hdict⟩ := hload
    refine ⟨fun ⟨_, hsame⟩ => ⟨hover, fun key o ho => ?_⟩, fun ⟨_, hlast⟩ => ⟨hfine, fun key => ?_⟩⟩
    · have hkey := hsame key
      rw [hdict, dictGet_foldl_store libc now _ hd, ho] at hkey
      exact hkey
    · rw [hdict, dictGet_foldl_store libc now _ hd]
      cases hlookup : lookup Prod.fst key (stored libc now coins (fileEntries file).1).reverse with
      | none =>
        -- no entry of the key was stored
        rw [Option.map_none, Option.none_or]
        cases dictGet d key with
        | none => exact .none
        | some o => exact .some (Obj.Same.refl o)
      | some p =>
        obtain ⟨k, o⟩ := p
        obtain rfl : k = key := (of_lookup_eq_some hlookup).2
        exact hlast k o hlookup

/-- A file with one entry and a wrong checksum. -/
def wrongCrc : Bytes :=
  snapshotBody (oneKey (ascii "k") (.str (ascii "v"))) ++ encode 8 0

/-- The file is rejected, and its key is in the dictionary that was empty. -/
theorem rdb_rejected_leaves_entry :
    let load := rdbLoad Libc.plain 0 (some wrongCrc) dictNew fun _ => false
    load.2 = false ∧ ¬(load.1.reader.overrun = false ∧
      ∀ key, Option.Rel Obj.Same (dictGet load.1.dict key) (dictGet dictNew key)) := by
  intro load
  have hsome : (dictGet load.1.dict (ascii "k")).isSome = true := by decide
  refine ⟨by decide +kernel, fun ⟨_, hsame⟩ => ?_⟩
  -- the key is there, and it was not before
  have hkey := hsame (ascii "k")
  rw [dictGet_dictNew] at hkey
  cases hget : dictGet load.1.dict (ascii "k") with
  | none =>
    rw [hget] at hsome
    exact Bool.false_ne_true hsome
  | some o =>
    rw [hget] at hkey
    cases hkey

/-- The same file, cut inside its entry, leaves a dictionary alone. -/
theorem rdb_rejected_cut :
    let d := oneKey (ascii "a") (.list [ascii "b"])
    let load := rdbLoad Libc.plain 0 (some (wrongCrc.take 30)) d fun _ => false
    load.2 = false ∧ ∀ key, Option.Rel Obj.Same (dictGet load.1.dict key) (dictGet d key) := by
  intro d load
  have hd : d.WF := wf_dictSet wf_dictNew _ _
  -- the cut file has no whole entry
  have hentries : (fileEntries (some (wrongCrc.take 30))).1 = [] :=
    List.isEmpty_iff.mp (by decide)
  refine ⟨by decide, ((rdb_rejected_iff Libc.plain 0 (some (wrongCrc.take 30)) hd
    fun _ => false).mpr ⟨by decide, fun key o ho => ?_⟩).2⟩
  rw [hentries, stored] at ho
  cases ho

end Minired
