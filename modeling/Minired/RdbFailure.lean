import Minired.RdbCodec

/-!
# Saving to a disk that fills up

No caller in `rdb.cpp` looks at the result of a write, so a stream that stops taking bytes
changes nothing in what `rdb_save` does next. `Writer.Cut n full` follows such a stream: of
the bytes `full` that a good disk would hold by now, the file has the first `n`, and the
running checksum is right for as long as all of them have fitted. Every function that writes
keeps it, for the bytes that `Minired.RdbCodec` says it writes.

At the end the temporary file holds a piece of the snapshot, and it is renamed onto the good
one (`rdbSave_cut`). What saves the old file is that the temporary one could not be opened,
or that the rename failed (`rdb_save_failed_iff`).
-/

namespace Minired

open LittleEndian

/-- A writer to a stream that takes `n` bytes and no more, when a stream that takes all
would hold `full`. -/
structure Writer.Cut (n : ℕ) (full : Bytes) (w : Writer) : Prop where
  out : w.out = full.take n
  room : w.room = some (n - full.length)
  crc : full.length ≤ n → w.crc = crc64Update 0 full

/-- A new writer has cut off nothing. -/
theorem Writer.cut_new (n : ℕ) : Writer.Cut n [] ⟨[], some n, 0⟩ where
  out := List.take_nil.symm
  room := rfl
  crc _ := rfl

section Cut

variable {n : ℕ} {full : Bytes} {w : Writer} (h : w.Cut n full)

include h

/-- The bytes and the room behind a write, whether the checksum counts it or not. -/
theorem Writer.Cut.fwrite (data : Bytes) :
    (w.fwrite data).1.out = (full ++ data).take n ∧
      (w.fwrite data).1.room = some (n - (full ++ data).length) ∧
      (w.fwrite data).2 = decide (data.length ≤ n - full.length) := by
  rw [Writer.fwrite, h.room, h.out]
  refine ⟨List.take_append.symm, ?_, rfl⟩
  rw [List.length_append, ← Nat.sub_sub]

/-- A write is cut off where the room ends, and says so. -/
theorem Writer.Cut.write (data : Bytes) :
    (w.write data).1.Cut n (full ++ data) ∧
      (w.write data).2 = decide (data.length ≤ n - full.length) := by
  obtain ⟨hout, hroom, hok⟩ := h.fwrite data
  obtain ⟨⟨w', ok⟩, hw'⟩ : ∃ p, p = w.fwrite data := ⟨_, rfl⟩
  rw [← hw'] at hout hroom hok
  have hlen : (full ++ data).length = full.length + data.length := List.length_append
  rw [Writer.write, ← hw']
  by_cases hfits : data.length ≤ n - full.length
  · -- all of the data fits, and the checksum counts it
    rw [decide_eq_true hfits] at hok ⊢
    obtain rfl : ok = true := hok
    refine ⟨⟨hout, hroom, fun hle => ?_⟩, rfl⟩
    rw [crc64Update_append, ← h.crc (by omega)]
  · -- the checksum is wrong from here on, and the room is used up
    rw [decide_eq_false hfits] at hok ⊢
    obtain rfl : ok = false := hok
    exact ⟨⟨hout, hroom, fun hle => absurd hle (by omega)⟩, rfl⟩

/-- A stream that has stopped is not written to any more. -/
theorem Writer.Cut.stopped (hfull : n < full.length) (data : Bytes) : w.Cut n (full ++ data) where
  out := by rw [h.out, List.take_append_of_le_length hfull.le]
  room := by
    rw [h.room, List.length_append]
    congr 1
    omega
  crc hle := by
    rw [List.length_append] at hle
    omega

/-- The data of a blob is not attempted when its length could not be written. -/
theorem Writer.Cut.writeBlob (data : Bytes) :
    (w.writeBlob data).1.Cut n (full ++ encodeBlob data) := by
  obtain ⟨hlen, hok⟩ := h.write (encode 4 data.length.toUInt32.toNat)
  rw [encodeBlob, ← List.append_assoc, Writer.writeBlob, Writer.writeU32]
  obtain ⟨⟨w', ok⟩, hw'⟩ : ∃ p, p = w.write (encode 4 data.length.toUInt32.toNat) := ⟨_, rfl⟩
  rw [← hw'] at hlen hok ⊢
  cases ok with
  | true => exact (hlen.write _).1
  | false =>
    -- the length did not fit, so the stream has stopped in front of the data
    have hstop := of_decide_eq_false hok.symm
    refine hlen.stopped ?_ _
    rw [List.length_append]
    omega

/-- A loop of writes cuts the concatenation. -/
theorem Writer.Cut.foldl {β : Type} {f : Writer → β → Writer} {g : β → Bytes}
    (hf : ∀ (w : Writer) (full : Bytes), w.Cut n full → ∀ b, (f w b).Cut n (full ++ g b))
    (bs : List β) : (bs.foldl f w).Cut n (full ++ bs.flatMap g) := by
  induction bs generalizing w full with
  | nil => rwa [List.flatMap_nil, List.append_nil]
  | cons b bs ih =>
    rw [List.foldl_cons, List.flatMap_cons, ← List.append_assoc]
    exact ih (hf w full h b)

/-- So is a value. -/
theorem Writer.Cut.writeValue (v : Value) :
    (writeValue w v).Cut n (full ++ encodeValue v) := by
  -- the number of items, and then the items one by one
  have hcount : ∀ count : UInt32, (w.writeU32 count).1.Cut n (full ++ encode 4 count.toNat) :=
    fun _ => (h.write _).1
  cases v with
  | str s => exact h.writeBlob s
  | list l =>
    rw [encodeValue, ← List.append_assoc]
    exact (hcount _).foldl (fun w full hw e => hw.writeBlob e) l
  | hash hash =>
    rw [encodeValue, ← List.append_assoc]
    refine (hcount _).foldl (fun w full hw kv => ?_) _
    rw [← List.append_assoc]
    exact (hw.writeBlob kv.1).writeBlob kv.2
  | zset z =>
    rw [encodeValue, ← List.append_assoc]
    refine (hcount _).foldl (fun w full hw c => ?_) _
    rw [← List.append_assoc]
    exact (hw.write _).1.writeBlob c.1

/-- `write_entry` reports success, whatever has reached the file. -/
theorem Writer.Cut.writeEntry (key : Bytes) (obj : Obj) :
    (writeEntry w key obj).1.Cut n (full ++ encodeEntry key obj) ∧
      (Minired.writeEntry w key obj).2 = true := by
  refine ⟨?_, rfl⟩
  simp only [encodeEntry, ← List.append_assoc]
  exact ((((h.write _).1.write _).1.writeBlob key).writeValue obj.value)

/-- The callback never stops the traversal. -/
theorem Writer.Cut.chainEach (es : List (DictEntry Obj)) :
    (chainEach saveCb (w, true) es).1.1.Cut n
        (full ++ es.flatMap fun e => encodeEntry e.key e.val) ∧
      (Minired.chainEach saveCb (w, true) es).1.2 = true := by
  induction es generalizing w full with
  | nil =>
    rw [Minired.chainEach, List.flatMap_nil, List.append_nil]
    exact ⟨h, rfl⟩
  | cons e es ih =>
    rw [List.flatMap_cons, ← List.append_assoc]
    exact ih (h.writeEntry e.key e.val).1

end Cut

/-- Everything in front of the checksum, cut. -/
theorem saveBody_cut (n : ℕ) (d : Dict Obj) :
    (saveBody (some n) d).1.Cut n (snapshotBody d) ∧ (saveBody (some n) d).2 = true := by
  -- magic, version and number of keys
  have hhead := (((Writer.cut_new n).write RDB_MAGIC).1.write (encode 4 RDB_VERSION.toNat)).1.write
    (encode 8 (dictSize d).toUInt64.toNat)
  obtain ⟨hout, hok⟩ := hhead.1.chainEach d.entries
  simp only [List.nil_append, List.append_assoc] at hout
  rw [saveBody, dictEach_eq]
  exact ⟨hout, hok⟩

/-- A save to a disk with room for `n` bytes reports success, and the first `n` bytes of the
snapshot take the place of the old file. -/
theorem rdbSave_cut {fs : FileSys} {n : ℕ} (hroom : fs.room = some n) (hopen : fs.canOpen = true)
    (hrename : fs.canRename = true) (d : Dict Obj) (path : Bytes) :
    (rdbSave fs d path).2 = true ∧
      (rdbSave fs d path).1.files path = some ((snapshot d).take n) := by
  obtain ⟨hbody, hok⟩ := saveBody_cut n d
  obtain ⟨⟨w, ok⟩, hw⟩ : ∃ p, p = saveBody (some n) d := ⟨_, rfl⟩
  rw [← hw] at hbody hok
  obtain rfl : ok = true := hok
  -- the checksum that is written is the right one, or no byte of it is
  have hout : (w.fwrite (encode 8 w.crc.toNat)).1.out = (snapshot d).take n := by
    rw [(hbody.fwrite _).1, snapshot]
    rcases Nat.lt_or_ge n (snapshotBody d).length with hlt | hge
    · rw [List.take_append_of_le_length hlt.le, List.take_append_of_le_length hlt.le]
    · rw [hbody.crc hge]
  rw [rdbSave, hopen, hroom, ← hw]
  simp only [Bool.not_true, Bool.false_eq_true, if_false, hrename, hout,
    Function.update_of_ne (tmpPath_ne path).symm, Function.update_self, and_self]

/-- **A failed save and the old snapshot.** When the disk fills up before the snapshot is
complete, `rdb_save` reports the failure and leaves the file alone if and only if it could
not open the temporary file or not rename it. Else it reports success, and an incomplete
snapshot has replaced the file. -/
theorem rdb_save_failed_iff {fs : FileSys} {n : ℕ} (hroom : fs.room = some n) (d : Dict Obj)
    (path : Bytes) (hshort : n < (snapshot d).length) :
    (((rdbSave fs d path).2 = false ∧ (rdbSave fs d path).1.files path = fs.files path) ↔
      fs.canOpen = false ∨ fs.canRename = false) ∧
    (fs.canOpen = true → fs.canRename = true → (rdbSave fs d path).2 = true ∧
      ∃ cut, (rdbSave fs d path).1.files path = some cut ∧ cut <+: snapshot d ∧
        cut ≠ snapshot d) := by
  refine ⟨⟨?_, ?_⟩, ?_⟩
  · rintro ⟨hfail, -⟩
    -- with both operations succeeding the save reports success
    by_contra hgood
    rw [not_or, Bool.not_eq_false, Bool.not_eq_false] at hgood
    have hsaved := (rdbSave_cut hroom hgood.1 hgood.2 d path).1
    rw [hfail] at hsaved
    exact Bool.false_ne_true hsaved
  · intro hbad
    cases hopen : fs.canOpen with
    | false =>
      rw [rdbSave, hopen]
      exact ⟨rfl, rfl⟩
    | true =>
      -- the temporary file is written, as far as it goes, and not renamed
      have hrename : fs.canRename = false :=
        hbad.resolve_left fun h => Bool.false_ne_true (h.symm.trans hopen)
      obtain ⟨-, hok⟩ := saveBody_cut n d
      rw [rdbSave, hopen, hroom]
      simp only [Bool.not_true, Bool.false_eq_true, if_false, hok, hrename, Bool.not_false,
        if_true, Function.update_of_ne (tmpPath_ne path).symm, and_self]
  · intro hopen hrename
    -- the cut is too short to be the snapshot
    obtain ⟨hsaved, hfile⟩ := rdbSave_cut hroom hopen hrename d path
    refine ⟨hsaved, _, hfile, List.take_prefix _ _, fun heq => ?_⟩
    have hlen := congrArg List.length heq
    rw [List.length_take] at hlen
    omega

/-- A disk with the file `good` at every path. -/
def diskWith (good : Bytes) (room : ℕ) (canRename : Bool) : FileSys :=
  ⟨fun _ => some good, true, some room, canRename⟩

/-- Three bytes of room: the snapshot that was there is replaced by the letters `MRD`, and
the save is reported as done. -/
theorem rdb_save_replaces_good_snapshot :
    let good := snapshot (dictSet dictNew (ascii "k") (newObj (.str (ascii "v"))))
    let save := rdbSave (diskWith good 3 true) dictNew (ascii "dump")
    3 < (snapshot dictNew).length ∧
      ¬(save.2 = false ∧ save.1.files (ascii "dump") = some good) ∧
      save.1.files (ascii "dump") = some (ascii "MRD") := by
  decide

/-- The rename fails, and what was there stays. -/
theorem rdb_save_failed_rename :
    let save := rdbSave (diskWith (ascii "good") 3 false) dictNew (ascii "dump")
    save.2 = false ∧ save.1.files (ascii "dump") = some (ascii "good") :=
  (rdb_save_failed_iff (show (diskWith (ascii "good") 3 false).room = some 3 from rfl) dictNew
    (ascii "dump") (by decide)).1.mpr (Or.inr rfl)

end Minired
