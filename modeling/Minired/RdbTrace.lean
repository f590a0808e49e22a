import Minired.RdbLayout

/-!
# What a load does to memory, and for how long

A log of `rdb_load` says, in order, which buffers `read_blob` makes and which of their bytes are
stored to, which iterations of the loops are complete, and where a read comes short. The logs
follow the reading functions call by call; a log goes on behind a read only if the read has given
a value, as its caller does.

`Logged` ties the log of a function to its run. A complete iteration of an inner loop has taken
the four bytes of the length of a blob at least, one of the loop over the keys thirteen bytes (a
type, a deadline and a length), so the bytes that are left pay for the log (`spent`). A short read
is the last thing in it (`short`). And the flag of the model that a buffer was overrun is set when
the log has a store outside its buffer (`overrun`).

The counts in the file play no role in this, so **`rdb_load_ends`** bounds the iterations by the
length of the file alone; and **`blobs_inside_iff`** says for which files all stores are inside
their buffers.
-/

namespace Minired

open LittleEndian

/-! ### Logs -/

/-- An event of a load. -/
inductive LoadEvent
  /-- `fread` gives fewer bytes than were asked for. -/
  | short
  /-- `read_blob` has a buffer of this size, and bytes are stored at these places of it. -/
  | blob (size : ℕ) (stores : List ℕ)
  /-- An iteration of one of the inner loops is complete. -/
  | element
  /-- An iteration of the loop over the keys is complete. -/
  | entry
  deriving DecidableEq, Repr

/-- All stores of the event are inside the buffer. -/
def LoadEvent.Inside : LoadEvent → Prop
  | .blob size stores => ∀ i ∈ stores, i < size
  | _ => True

/-- The bytes of the file that pay for the event. -/
def LoadEvent.cost : LoadEvent → ℕ
  | .entry => 13
  | .element => 4
  | _ => 0

/-- A read, which may come short. -/
def readLog {α : Type} (p : Reader × Option α) : List LoadEvent :=
  if p.2.isNone then [.short] else []

/-- Where `read_blob` stores with `left` bytes in the file: `fread` the data, as far as there
are, and then a NUL behind it, if the data was all there. -/
def blobStores (len left : ℕ) : List ℕ :=
  List.range (min len left) ++ if len ≤ left then [len] else []

/-- `Reader::read_blob`; the size of the buffer is computed in 32 bits. -/
def Reader.blobLog (r : Reader) : List LoadEvent :=
  readLog (r.readUInt 4) ++ readThen (fun _ => []) (r.readUInt 4) fun r' len =>
    .blob ((len + 1) % 2 ^ 32) (blobStores len r'.rest.length) :: readLog r.readBlob

/-- The loop that reads the elements of a list. -/
def readListLog : ℕ → Reader → List LoadEvent
  | 0, _ => []
  | n + 1, r =>
    r.blobLog ++ readThen (fun _ => []) r.readBlob fun r _ => .element :: readListLog n r

/-- The loop that reads the fields of a hash. -/
def readHashLog : ℕ → Reader → List LoadEvent
  | 0, _ => []
  | n + 1, r =>
    r.blobLog ++ readThen (fun _ => []) r.readBlob fun r _ =>
      r.blobLog ++ readThen (fun _ => []) r.readBlob fun r _ => .element :: readHashLog n r

/-- The loop that reads the members of a sorted set. -/
def readZSetLog : ℕ → Reader → List LoadEvent
  | 0, _ => []
  | n + 1, r =>
    readLog r.readDouble ++ readThen (fun _ => []) r.readDouble fun r _ =>
      r.blobLog ++ readThen (fun _ => []) r.readBlob fun r _ => .element :: readZSetLog n r

/-- The number of elements, and the loop that reads them. -/
def readManyLog (loop : ℕ → Reader → List LoadEvent) (r : Reader) : List LoadEvent :=
  readLog (r.readUInt 4) ++ readThen (fun _ => []) (r.readUInt 4) fun r count => loop count r

/-- The `switch` of `rdb_load`. -/
def readValueLog (type : ℕ) (r : Reader) : List LoadEvent :=
  match type with
  | 0 => r.blobLog
  | 1 => readManyLog readListLog r
  | 2 => readManyLog readHashLog r
  | 3 => readManyLog readZSetLog r
  | _ => []

variable (libc : Libc)

/-- One iteration of the loop over the keys. -/
def loadEntryLog (s : LoadState) : List LoadEvent :=
  readLog (s.reader.readUInt 1) ++ readThen (fun _ => []) (s.reader.readUInt 1) fun r type =>
    readLog r.readI64 ++ readThen (fun _ => []) r.readI64 fun r _ =>
      r.blobLog ++ readThen (fun _ => []) r.readBlob fun r _ =>
        readValueLog type r ++ if (readValue libc type r s.coins).2.isSome then [.entry] else []

/-- The loop over the keys. -/
def loadLoopLog (now : Int64) : ℕ → LoadState → List LoadEvent
  | 0, _ => []
  | n + 1, s =>
    loadEntryLog libc s ++
      if (loadEntry libc now s).2 then loadLoopLog now n (loadEntry libc now s).1 else []

/-- The checks of the head. -/
def readHeadLog (r : Reader) : List LoadEvent :=
  readLog (r.read 4) ++ readThen (fun _ => []) (r.read 4) fun r magic =>
    if magic ≠ RDB_MAGIC then [] else
      readLog (r.readUInt 4) ++ readThen (fun _ => []) (r.readUInt 4) fun r ver =>
        if ver ≠ RDB_VERSION.toNat then [] else readLog (r.readUInt 8)

/-- The read of the checksum, behind the loop. -/
def checkCrcLog (s : LoadState) : List LoadEvent :=
  if s.reader.rest.length < 8 then [.short] else []

/-- `rdb_load`. -/
def rdbLoadLog (now : Int64) (file : Option Bytes) (d : Dict Obj) (coins : Coins) :
    List LoadEvent :=
  match file with
  | none => []
  | some content =>
    let r : Reader := ⟨content, 0, true, false⟩
    readHeadLog r ++ readThen (fun _ => []) (readHead r) fun r keyCount =>
      loadLoopLog libc now keyCount ⟨r, d, coins⟩ ++
        if (loadLoop libc now keyCount ⟨r, d, coins⟩).2 then
          checkCrcLog (loadLoop libc now keyCount ⟨r, d, coins⟩).1
        else []

/-- What the complete iterations cost. -/
theorem cost_sum (log : List LoadEvent) :
    (log.map LoadEvent.cost).sum = 13 * log.count .entry + 4 * log.count .element := by
  induction log with
  | nil => rfl
  | cons e log ih =>
    rw [List.map_cons, List.sum_cons, ih, List.count_cons, List.count_cons]
    cases e <;> simp [LoadEvent.cost] <;> omega

/-! ### What the logs say -/

/-- **The log of a run** from a reader to a reader. With `credit` bytes paid in advance, the bytes
that are taken pay for the log; when the run is done, `gain` bytes are paid for what follows. -/
structure Logged (credit : ℕ) (r : Reader) (log : List LoadEvent) (r' : Reader) (done : Bool)
    (gain : ℕ) : Prop where
  spent : (log.map LoadEvent.cost).sum + r'.rest.length + (if done then gain else 0) ≤
    r.rest.length + credit
  short : .short ∈ log → done = false ∧ ∃ front, log = front ++ [.short] ∧ .short ∉ front
  overrun : r'.overrun = true ↔ r.overrun = true ∨ ∃ e ∈ log, ¬e.Inside

namespace Logged

variable {credit gain gain' : ℕ} {r r' r'' : Reader} {log log' : List LoadEvent} {done : Bool}

/-- A run that does nothing. -/
theorem nil (credit : ℕ) (r : Reader) (done : Bool) : Logged credit r [] r done credit where
  spent := by
    rw [List.map_nil, List.sum_nil]
    split <;> omega
  short h := absurd h List.not_mem_nil
  overrun := by simp

/-- What was paid in advance need not be spent. -/
theorem mono (h : Logged credit r log r' done gain) {credit' : ℕ} (hcredit : credit ≤ credit')
    (hgain : gain' ≤ gain) : Logged credit' r log r' done gain' where
  spent := by
    have hspent := h.spent
    split at hspent <;> simp_all <;> omega
  short := h.short
  overrun := h.overrun

/-- A run that is not done gains nothing. -/
theorem of_not_done (h : Logged credit r log r' false gain) (gain' : ℕ) :
    Logged credit r log r' false gain' :=
  ⟨h.spent, h.short, h.overrun⟩

/-- One run behind another. -/
theorem append (h : Logged credit r log r' true gain) (h' : Logged gain r' log' r'' done gain') :
    Logged credit r (log ++ log') r'' done gain' where
  spent := by
    have hspent := h.spent
    have hspent' := h'.spent
    rw [if_pos rfl] at hspent
    rw [List.map_append, List.sum_append]
    omega
  short hmem := by
    -- the first run is done, so no read of it came short
    have hfirst : .short ∉ log := fun hlog => Bool.noConfusion (h.short hlog).1
    obtain ⟨hdone, front, hfront, hnot⟩ :=
      h'.short ((List.mem_append.mp hmem).resolve_left hfirst)
    refine ⟨hdone, log ++ front, by rw [hfront, List.append_assoc], ?_⟩
    rw [List.mem_append, not_or]
    exact ⟨hfirst, hnot⟩
  overrun := by
    rw [h'.overrun, h.overrun, or_assoc]
    simp only [List.mem_append, or_and_right, exists_or]

/-- A read that comes short, and takes what there is. -/
theorem of_short (hrest : r'.rest.length ≤ r.rest.length) (hover : r'.overrun = r.overrun) :
    Logged credit r [.short] r' false gain where
  spent := by
    have hcost : LoadEvent.short.cost = 0 := rfl
    rw [List.map_singleton, List.sum_singleton, hcost, if_neg Bool.false_ne_true]
    omega
  short _ := ⟨rfl, [], rfl, List.not_mem_nil⟩
  overrun := by simp [hover, LoadEvent.Inside]

/-- An event that is paid for in advance, in front of a run in which a flag says whether its stores
are inside. -/
theorem cons (e : LoadEvent) (he : e ≠ .short) (flag : Bool) (hflag : flag = true ↔ ¬e.Inside)
    (h : Logged credit { r with overrun := r.overrun || flag } log r' done gain) :
    Logged (credit + e.cost) r (e :: log) r' done gain where
  spent := by
    have hspent := h.spent
    rw [List.map_cons, List.sum_cons]
    dsimp only at hspent
    omega
  short hmem := by
    obtain ⟨hdone, front, hfront, hnot⟩ :=
      h.short ((List.mem_cons.mp hmem).resolve_left (Ne.symm he))
    refine ⟨hdone, e :: front, by rw [hfront]; rfl, ?_⟩
    rw [List.mem_cons, not_or]
    exact ⟨Ne.symm he, hnot⟩
  overrun := by
    rw [h.overrun, Bool.or_eq_true, hflag, or_assoc]
    simp only [List.mem_cons, or_and_right, exists_or, exists_eq_left]

/-- The end of an iteration. -/
theorem charge (h : Logged credit r log r' done gain) (e : LoadEvent) (he : e ≠ .short)
    (hinside : e.Inside) : Logged (credit + e.cost) r (e :: log) r' done gain := by
  refine cons e he false ?_ ?_
  · simp [hinside]
  · rwa [Bool.or_false]

/-- A reading function, and the rest of its caller. -/
theorem bind {α σ : Type} {p : Reader × Option α} (h : Logged credit r log p.1 p.2.isSome gain)
    (rd : σ → Reader) (dn : σ → Bool) {fail : Reader → σ}
    (hfail : ∀ r, rd (fail r) = r ∧ dn (fail r) = false) {f : Reader → α → List LoadEvent}
    {k : Reader → α → σ}
    (hmore : ∀ r' a, p = (r', some a) →
      Logged gain r' (f r' a) (rd (k r' a)) (dn (k r' a)) gain') :
    Logged credit r (log ++ readThen (fun _ => []) p f) (rd (readThen fail p k))
      (dn (readThen fail p k)) gain' := by
  obtain ⟨r', _ | a⟩ := p
  · -- the caller returns
    rw [readThen, readThen, List.append_nil, (hfail r').1, (hfail r').2]
    exact h.of_not_done gain'
  · exact h.append (hmore r' a rfl)

end Logged

/-! ### The reading functions -/

variable {credit : ℕ} {r : Reader}

/-- The log of a read depends on whether it has given a value. -/
theorem readLog_map {α β : Type} (p : Reader × Option α) (f : α → β) :
    readLog (p.1, p.2.map f) = readLog p := by
  rw [readLog, readLog, Option.isNone_map]

/-- `fread` is logged with what it asks for. -/
theorem logged_read (credit : ℕ) (r : Reader) (n : ℕ) :
    Logged credit r (readLog (r.read n)) (r.read n).1 (r.read n).2.isSome (credit + n) := by
  unfold Reader.read
  split
  · exact .of_short le_rfl rfl
  · split
    · exact .of_short (Nat.zero_le _) rfl
    · refine ⟨?_, fun h => absurd h List.not_mem_nil, by simp [readLog]⟩
      simp only [readLog, Option.isNone_some, Bool.false_eq_true, if_false, List.map_nil,
        List.sum_nil, Option.isSome_some, if_true, List.length_drop]
      omega

/-- A value that is decoded from what was read. -/
theorem Logged.map {α β : Type} {p : Reader × Option α} (f : α → β) {gain : ℕ}
    (h : Logged credit r (readLog p) p.1 p.2.isSome gain) :
    Logged credit r (readLog (p.1, p.2.map f)) p.1 (p.2.map f).isSome gain := by
  rwa [readLog_map, Option.isSome_map]

/-- So is a number. -/
theorem logged_readUInt (credit : ℕ) (r : Reader) (width : ℕ) :
    Logged credit r (readLog (r.readUInt width)) (r.readUInt width).1
      (r.readUInt width).2.isSome (credit + width) :=
  (logged_read credit r width).map decode

/-- So is a deadline. -/
theorem logged_readI64 (credit : ℕ) (r : Reader) :
    Logged credit r (readLog r.readI64) r.readI64.1 r.readI64.2.isSome (credit + 8) :=
  (logged_readUInt credit r 8).map fun n : ℕ => n.toUInt64.toInt64

/-- So is a score. -/
theorem logged_readDouble (credit : ℕ) (r : Reader) :
    Logged credit r (readLog r.readDouble) r.readDouble.1 r.readDouble.2.isSome (credit + 8) :=
  (logged_readUInt credit r 8).map fun n : ℕ => (⟨n.toUInt64⟩ : Double)

/-- The buffer is too small only for the longest of all lengths, and only if a byte is stored. -/
theorem blob_inside_iff {len left : ℕ} (hlen : len < 2 ^ 32) :
    (LoadEvent.blob ((len + 1) % 2 ^ 32) (blobStores len left)).Inside ↔
      ¬(len + 1) % 2 ^ 32 < min len left := by
  have hmem : ∀ i, i ∈ blobStores len left ↔ i < min len left ∨ i = len ∧ len ≤ left := by
    intro i
    rw [blobStores, List.mem_append, List.mem_range]
    split <;> simp [*]
  by_cases hmax : len = 2 ^ 32 - 1
  · -- the sum wraps, and nothing is allocated
    have hsize : (len + 1) % 2 ^ 32 = 0 := by
      rw [hmax]
      rfl
    rw [hsize]
    constructor
    · exact fun h hpos => absurd (h 0 ((hmem 0).mpr (.inl hpos))) (Nat.lt_irrefl 0)
    · intro h i hi
      rcases (hmem i).mp hi with hlt | ⟨-, hle⟩
      · omega
      · rw [Nat.min_eq_left hle] at h
        omega
  · -- one byte more than the text, for the terminator
    have hsize : (len + 1) % 2 ^ 32 = len + 1 := Nat.mod_eq_of_lt (by omega)
    rw [hsize]
    constructor
    · intro _
      omega
    · intro _ i hi
      rcases (hmem i).mp hi with hlt | ⟨rfl, -⟩ <;> omega

/-- A string is logged with its length. -/
theorem logged_readBlob (credit : ℕ) (r : Reader) :
    Logged credit r r.blobLog r.readBlob.1 r.readBlob.2.isSome (credit + 4) := by
  rw [readBlob_eq, Reader.blobLog]
  refine (logged_readUInt credit r 4).bind Prod.fst (fun p => Option.isSome p.2)
    (fun _ => ⟨rfl, rfl⟩) fun r' len hp => ?_
  rw [readBlob_eq, hp]
  refine Logged.cons (.blob _ _) nofun (decide ((len + 1) % 2 ^ 32 < min len r'.rest.length)) ?_
    ((logged_read (credit + 4) _ len).mono le_rfl (Nat.le_add_right ..))
  rw [blob_inside_iff (readUInt_took hp).1, not_not, decide_eq_true_eq]

/-! ### The loops -/

/-- The length of an element pays for its iteration. -/
theorem logged_readList (credit n : ℕ) (r : Reader) (l : List Bytes) :
    Logged credit r (readListLog n r) (readList n r l).1 (readList n r l).2.isSome credit := by
  induction n generalizing r l with
  | zero => exact .nil credit r true
  | succ n ih =>
    rw [readList_eq, readListLog]
    refine (logged_readBlob credit r).bind Prod.fst (fun p => Option.isSome p.2)
      (fun _ => ⟨rfl, rfl⟩) fun r' elem _ => ?_
    exact (ih r' _).charge .element nofun trivial

/-- The length of a field pays for its iteration. -/
theorem logged_readHash (credit n : ℕ) (r : Reader) (h : Dict Bytes) :
    Logged credit r (readHashLog n r) (readHash n r h).1 (readHash n r h).2.isSome credit := by
  induction n generalizing r h with
  | zero => exact .nil credit r true
  | succ n ih =>
    rw [readHash_eq, readHashLog]
    refine (logged_readBlob credit r).bind Prod.fst (fun p => Option.isSome p.2)
      (fun _ => ⟨rfl, rfl⟩) fun r' field _ => ?_
    refine (logged_readBlob _ r').bind Prod.fst (fun p => Option.isSome p.2)
      (fun _ => ⟨rfl, rfl⟩) fun r'' val _ => ?_
    exact ((ih r'' _).mono (Nat.le_add_right ..) le_rfl).charge .element nofun trivial

/-- The length of a member pays for its iteration. -/
theorem logged_readZSet (credit n : ℕ) (r : Reader) (z : ZSet) (coins : Coins) :
    Logged credit r (readZSetLog n r) (readZSet libc n r z coins).1.1
      (readZSet libc n r z coins).2.isSome credit := by
  induction n generalizing r z coins with
  | zero => exact .nil credit r true
  | succ n ih =>
    rw [readZSet_eq, readZSetLog]
    refine (logged_readDouble credit r).bind WithCoins.reader (fun p => Option.isSome p.2)
      (fun _ => ⟨rfl, rfl⟩) fun r' score _ => ?_
    refine (logged_readBlob _ r').bind WithCoins.reader (fun p => Option.isSome p.2)
      (fun _ => ⟨rfl, rfl⟩) fun r'' member _ => ?_
    exact ((ih r'' _ _).mono (Nat.le_add_right ..) le_rfl).charge .element nofun trivial

/-- A value; nothing is left to pay with. -/
theorem logged_readValue (credit type : ℕ) (r : Reader) (coins : Coins) :
    Logged credit r (readValueLog type r) (readValue libc type r coins).1.1
      (readValue libc type r coins).2.isSome credit := by
  match type with
  | 0 =>
    show Logged credit r r.blobLog r.readBlob.1 (r.readBlob.2.map Value.str).isSome credit
    rw [Option.isSome_map]
    exact (logged_readBlob credit r).mono le_rfl (Nat.le_add_right ..)
  | 1 =>
    rw [readValue_list]
    refine (logged_readUInt credit r 4).bind (@WithCoins.reader Value)
      (fun p => Option.isSome p.2) (fun _ => ⟨rfl, rfl⟩) fun r' count _ => ?_
    show Logged _ r' _ (readList count r' []).1 ((readList count r' []).2.map Value.list).isSome _
    rw [Option.isSome_map]
    exact (logged_readList credit count r' []).mono (Nat.le_add_right ..) le_rfl
  | 2 =>
    rw [readValue_hash]
    refine (logged_readUInt credit r 4).bind (@WithCoins.reader Value)
      (fun p => Option.isSome p.2) (fun _ => ⟨rfl, rfl⟩) fun r' count _ => ?_
    show Logged _ r' _ (readHash count r' _).1
      ((readHash count r' dictNew).2.map Value.hash).isSome _
    rw [Option.isSome_map]
    exact (logged_readHash credit count r' dictNew).mono (Nat.le_add_right ..) le_rfl
  | 3 =>
    rw [readValue_zset]
    refine (logged_readUInt credit r 4).bind (@WithCoins.reader Value)
      (fun p => Option.isSome p.2) (fun _ => ⟨rfl, rfl⟩) fun r' count _ => ?_
    show Logged _ r' _ (readZSet libc count r' zsetNew coins).1.1
      ((readZSet libc count r' zsetNew coins).2.map Value.zset).isSome _
    rw [Option.isSome_map]
    exact (logged_readZSet libc credit count r' zsetNew coins).mono (Nat.le_add_right ..) le_rfl
  -- an unknown type reads nothing
  | _ + 4 => exact .nil credit r false

/-- Type, deadline and the length of the key pay for an iteration over the keys. -/
theorem logged_loadEntry (credit : ℕ) (now : Int64) (s : LoadState) :
    Logged credit s.reader (loadEntryLog libc s) (loadEntry libc now s).1.reader
      (loadEntry libc now s).2 credit := by
  rw [loadEntry_eq, loadEntryLog]
  refine (logged_readUInt credit s.reader 1).bind entryReader Prod.snd (fun _ => ⟨rfl, rfl⟩)
    fun r type _ => ?_
  refine (logged_readI64 _ r).bind entryReader Prod.snd (fun _ => ⟨rfl, rfl⟩)
    fun r expireAtMs _ => ?_
  refine (logged_readBlob _ r).bind entryReader Prod.snd (fun _ => ⟨rfl, rfl⟩) fun r key _ => ?_
  have hvalue := logged_readValue libc (credit + 1 + 8 + 4) type r s.coins
  obtain ⟨⟨⟨r', coins⟩, o⟩, hp⟩ : ∃ p, p = readValue libc type r s.coins := ⟨_, rfl⟩
  rw [← hp] at hvalue ⊢
  cases o with
  | none =>
    rw [Option.isSome_none, if_neg Bool.false_ne_true, List.append_nil]
    exact hvalue.of_not_done credit
  | some value =>
    rw [Option.isSome_some, if_pos rfl]
    exact hvalue.append ((Logged.nil credit r' true).charge .entry nofun trivial)

/-- The loop over the keys. -/
theorem logged_loadLoop (credit : ℕ) (now : Int64) (n : ℕ) (s : LoadState) :
    Logged credit s.reader (loadLoopLog libc now n s) (loadLoop libc now n s).1.reader
      (loadLoop libc now n s).2 credit := by
  induction n generalizing s with
  | zero => exact .nil credit s.reader true
  | succ n ih =>
    have hentry := logged_loadEntry libc credit now s
    rw [loadLoopLog, loadLoop]
    obtain ⟨⟨s', more⟩, hp⟩ : ∃ p, p = loadEntry libc now s := ⟨_, rfl⟩
    rw [← hp] at hentry ⊢
    cases more with
    | false =>
      rw [if_neg Bool.false_ne_true, List.append_nil]
      exact hentry
    | true =>
      rw [if_pos rfl]
      exact hentry.append (ih s')

/-! ### The file -/

/-- So is the head of the file. -/
theorem logged_readHead (r : Reader) :
    Logged 0 r (readHeadLog r) (readHead r).1 (readHead r).2.isSome 0 := by
  unfold readHead readHeadLog
  refine (logged_read 0 r 4).bind Prod.fst (fun p => Option.isSome p.2) (fun _ => ⟨rfl, rfl⟩)
    fun r magic _ => ?_
  split
  · exact (Logged.nil _ r false).of_not_done 0
  refine (logged_readUInt _ r 4).bind Prod.fst (fun p => Option.isSome p.2) (fun _ => ⟨rfl, rfl⟩)
    fun r ver _ => ?_
  split
  · exact (Logged.nil _ r false).of_not_done 0
  · exact (logged_readUInt _ r 8).mono le_rfl (Nat.zero_le _)

/-- The comparison of the checksums takes what is not logged. -/
theorem logged_checkCrc (p : LoadState × Bool) :
    Logged 0 p.1.reader (if p.2 then checkCrcLog p.1 else []) (checkCrc p).1.reader (checkCrc p).2
      0 := by
  obtain ⟨s, _ | _⟩ := p
  · exact .nil 0 s.reader false
  · rw [if_pos rfl, checkCrcLog, checkCrc]
    by_cases hshort : s.reader.rest.length < 8
    · rw [if_pos hshort, if_pos hshort]
      exact .of_short le_rfl rfl
    · rw [if_neg hshort, if_neg hshort]
      refine ⟨?_, fun h => absurd h List.not_mem_nil, by simp⟩
      have hrest : (s.reader.rest.drop 8).length ≤ s.reader.rest.length :=
        (List.drop_sublist 8 _).length_le
      rw [List.map_nil, List.sum_nil, ite_self]
      exact (Nat.zero_add _).le.trans hrest

/-- **The log of `rdb_load`.** -/
theorem logged_rdbLoad (now : Int64) (content : Bytes) (d : Dict Obj) (coins : Coins) :
    Logged 0 ⟨content, 0, true, false⟩ (rdbLoadLog libc now (some content) d coins)
      (rdbLoad libc now (some content) d coins).1.reader
      (rdbLoad libc now (some content) d coins).2 0 := by
  rw [rdbLoad_eq, rdbLoadLog]
  refine (logged_readHead _).bind entryReader Prod.snd (fun _ => ⟨rfl, rfl⟩) fun r keyCount _ => ?_
  have hloop := logged_loadLoop libc 0 now keyCount ⟨r, d, coins⟩
  have hcrc := logged_checkCrc (loadLoop libc now keyCount ⟨r, d, coins⟩)
  obtain ⟨⟨s, ended⟩, hp⟩ : ∃ p, p = loadLoop libc now keyCount ⟨r, d, coins⟩ := ⟨_, rfl⟩
  rw [← hp] at hloop hcrc ⊢
  cases ended with
  | false =>
    rw [if_neg Bool.false_ne_true, List.append_nil]
    exact hloop
  | true => exact hloop.append hcrc

/-- **`rdb_load` ends, whatever the counts in the file are.** The iterations that are complete when
it returns are paid for by the bytes of the file, thirteen for a key and four for an element; and
a read that comes short is the last thing that it does, and makes it return false. -/
theorem rdb_load_ends (now : Int64) (content : Bytes) (d : Dict Obj) (coins : Coins) :
    let load := rdbLoad libc now (some content) d coins
    let log := rdbLoadLog libc now (some content) d coins
    log.count .entry ≤ content.length / 13 ∧ log.count .element ≤ content.length / 4 ∧
      (.short ∈ log → load.2 = false ∧ ∃ front, log = front ++ [.short] ∧ .short ∉ front) := by
  intro load log
  have hlog := logged_rdbLoad libc now content d coins
  have hspent : 13 * log.count .entry + 4 * log.count .element ≤ content.length := by
    have hsum := hlog.spent
    rw [cost_sum, ite_self] at hsum
    exact (Nat.le_add_right ..).trans hsum
  refine ⟨(Nat.le_div_iff_mul_le (by decide)).mpr ?_, (Nat.le_div_iff_mul_le (by decide)).mpr ?_,
    hlog.short⟩
  · omega
  · omega

/-- **All stores of `rdb_load` into the buffers of blobs are inside them** exactly when the entries
of the file do not lead to a length of `2 ^ 32 - 1` with a byte behind it. -/
theorem blobs_inside_iff (now : Int64) (file : Option Bytes) (d : Dict Obj) (coins : Coins) :
    (∀ e ∈ rdbLoadLog libc now file d coins, e.Inside) ↔
      (fileEntries file).2 ≠ some .overrun := by
  have hstores := rdbLoad_stores libc now file d coins
  cases file with
  | none =>
    refine ⟨fun _ => by simp [fileEntries], fun _ e he => absurd he List.not_mem_nil⟩
  | some content =>
    -- the flag of the model stands between the two
    have hflag := (logged_rdbLoad libc now content d coins).overrun
    have hsafe : (∀ e ∈ rdbLoadLog libc now (some content) d coins, e.Inside) ↔
        (rdbLoad libc now (some content) d coins).1.reader.overrun = false := by
      rw [← Bool.not_eq_true, hflag]
      simp
    rw [hsafe]
    by_cases hover : (fileEntries (some content)).2 = some .overrun
    · rw [if_pos hover] at hstores
      simp [hstores, hover]
    · rw [if_neg hover] at hstores
      simp [hstores.1, hover]

/-- A snapshot of one string whose key claims `2 ^ 32 - 1` bytes and has one. -/
def longestKey : Bytes :=
  RDB_MAGIC ++ encode 4 1 ++ encode 8 1 ++ [0] ++ encode 8 0 ++ encode 4 (2 ^ 32 - 1) ++ [65]

/-- The byte is stored into a buffer of no bytes. -/
theorem blob_outside :
    ¬∀ e ∈ rdbLoadLog Libc.plain 0 (some longestKey) dictNew fun _ => false, e.Inside := by
  intro h
  have hblob : LoadEvent.blob 0 [0] ∈
      rdbLoadLog Libc.plain 0 (some longestKey) dictNew fun _ => false := by decide
  exact absurd (h _ hblob 0 List.mem_cons_self) (Nat.lt_irrefl 0)

end Minired
