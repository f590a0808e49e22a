import Minired.Checksum
import Minired.RdbLayout

/-!
# Corrupted snapshots

A change of the data of a snapshot, inside one window of eight bytes, leaves its framing as it was.
So `rdb_load` goes the same way through the changed file, over other keys, values, scores or
deadlines (`like_body`), and finds the checksum of the old body behind a new one. The
two bodies differ within eight bytes only, so their checksums are different
(`crc64Update_ne`), and the file is rejected.
-/

namespace Minired

open LittleEndian Layout

/-! ### Layouts like that of a body -/

variable {qs : List (Piece UInt8)}

/-- What looks like a blob is one of the same length. -/
theorem like_blob {data : Bytes} (hdata : FitsBlob data) (h : Like (blobPieces data) qs) :
    ∃ data', FitsBlob data' ∧ qs = blobPieces data' := by
  obtain ⟨qs₁, rfl, h₁⟩ := Like.of_frame h
  obtain ⟨data', qs₂, hlen, rfl, h₂⟩ := Like.of_data h₁
  cases h₂
  exact ⟨data', hlen.trans_lt hdata, by rw [blobPieces, hlen]⟩

/-- What looks like a field and its value is one. -/
theorem like_field {kv : Bytes × Bytes} (hkv : FitsBlob kv.1 ∧ FitsBlob kv.2)
    (h : Like (fieldPieces kv) qs) :
    ∃ kv' : Bytes × Bytes, (FitsBlob kv'.1 ∧ FitsBlob kv'.2) ∧ qs = fieldPieces kv' := by
  obtain ⟨q, q', rfl, hq, hq'⟩ := Like.of_append h
  obtain ⟨field, hfield, rfl⟩ := like_blob hkv.1 hq
  obtain ⟨value, hvalue, rfl⟩ := like_blob hkv.2 hq'
  exact ⟨(field, value), ⟨hfield, hvalue⟩, rfl⟩

/-- Any eight bytes are those of a score. -/
theorem like_record {c : Bytes × Double} (hc : FitsBlob c.1) (h : Like (recordPieces c) qs) :
    ∃ c' : Bytes × Double, FitsBlob c'.1 ∧ qs = recordPieces c' := by
  obtain ⟨bits, qs₁, hlen, rfl, h₁⟩ := Like.of_data h
  obtain ⟨member, hmember, rfl⟩ := like_blob hc h₁
  rw [length_encode] at hlen
  refine ⟨(member, ⟨(decode bits).toUInt64⟩), hmember, ?_⟩
  have hlt := decode_lt bits
  rw [hlen] at hlt
  have hback : (decode bits).toUInt64.toNat = decode bits := Nat.mod_eq_of_lt hlt
  rw [recordPieces, hback, ← hlen, encode_decode]

/-- The type and the counts are framing. -/
theorem like_value {v : RawValue} (hv : v.Fits) (h : Like v.pieces qs) :
    ∃ v' : RawValue, v'.type = v.type ∧ v'.Fits ∧ qs = v'.pieces := by
  cases v with
  | str s =>
    obtain ⟨s', hs', rfl⟩ := like_blob hv h
    exact ⟨.str s', rfl, hs', rfl⟩
  | list l =>
    obtain ⟨qs', rfl, h'⟩ := Like.of_frame h
    obtain ⟨l', hlen, hl', rfl⟩ := Like.of_flatMap hv.2 (fun _ _ => like_blob) h'
    exact ⟨.list l', rfl, ⟨hlen.trans_lt hv.1, hl'⟩, by rw [RawValue.pieces, hlen]⟩
  | hash kvs =>
    obtain ⟨qs', rfl, h'⟩ := Like.of_frame h
    obtain ⟨kvs', hlen, hkvs', rfl⟩ := Like.of_flatMap hv.2 (fun _ _ => like_field) h'
    exact ⟨.hash kvs', rfl, ⟨hlen.trans_lt hv.1, hkvs'⟩, by rw [RawValue.pieces, hlen]⟩
  | zset cs =>
    obtain ⟨qs', rfl, h'⟩ := Like.of_frame h
    obtain ⟨cs', hlen, hcs', rfl⟩ := Like.of_flatMap hv.2 (fun _ _ => like_record) h'
    exact ⟨.zset cs', rfl, ⟨hlen.trans_lt hv.1, hcs'⟩, by rw [RawValue.pieces, hlen]⟩

/-- Any eight bytes are those of a deadline. -/
theorem like_entry {e : FileEntry} (he : e.Fits) (h : Like e.pieces qs) :
    ∃ e' : FileEntry, e'.Fits ∧ qs = e'.pieces := by
  obtain ⟨qs₁, rfl, h₁⟩ := Like.of_frame h
  obtain ⟨deadline, qs₂, hlen, rfl, h₂⟩ := Like.of_data h₁
  obtain ⟨q, q', rfl, hq, hq'⟩ := Like.of_append h₂
  obtain ⟨key, hkey, rfl⟩ := like_blob he.key hq
  obtain ⟨v, htype, hv, rfl⟩ := like_value he.value hq'
  rw [length_encode] at hlen
  refine ⟨⟨key, (decode deadline).toUInt64.toInt64, v⟩, ⟨hkey, hv⟩, ?_⟩
  have hlt := decode_lt deadline
  rw [hlen] at hlt
  have hback : (decode deadline).toUInt64.toInt64.toUInt64.toNat = decode deadline :=
    Nat.mod_eq_of_lt hlt
  rw [FileEntry.pieces, hback, htype, ← hlen, encode_decode]

/-- **A layout like that of a body** is that of a body. -/
theorem like_body {b : FileBody} (h : Like b.pieces qs) : ∃ b' : FileBody, qs = b'.pieces := by
  obtain ⟨qs₁, rfl, h₁⟩ := Like.of_frame h
  obtain ⟨qs₂, rfl, h₂⟩ := Like.of_frame h₁
  obtain ⟨qs₃, rfl, h₃⟩ := Like.of_frame h₂
  obtain ⟨es, hlen, hes, rfl⟩ := Like.of_flatMap b.fits (fun _ _ => like_entry) h₃
  have hcount : es.length < 2 ^ 64 := hlen.trans_lt b.count_lt
  exact ⟨⟨es, hes, hcount⟩, by rw [← hlen]; rfl⟩

/-! ### Corruption -/

/-- The second file is the first with other data: it differs, but within eight places only, and
only where the body has keys, values, elements, fields, scores or deadlines. -/
structure Corrupted (b : FileBody) (file file' : Bytes) : Prop where
  ne : file ≠ file'
  window : ∃ i, AgreeOutside i 8 file file'
  data : ∀ j : ℕ, (mask b.pieces)[j]? ≠ some true → file'[j]? = file[j]?

/-- Only the body can be corrupted. -/
theorem Corrupted.body {b : FileBody} {back file' : Bytes}
    (h : Corrupted b (b.bytes ++ back) file') :
    ∃ b' : FileBody, file' = b'.bytes ++ back ∧ b'.checksum ≠ b.checksum := by
  obtain ⟨hne, ⟨i, hlen, hwindow⟩, hdata⟩ := h
  obtain ⟨qs, hlike, rfl⟩ := exists_like hlen.symm hdata
  obtain ⟨b', rfl⟩ := like_body hlike
  refine ⟨b', rfl, (crc64Update_ne 0 (i := i) ⟨hlike.length_eq.symm, fun j hj => ?_⟩ ?_).symm⟩
  · -- what holds of the files holds of the bodies in front
    have hget := hwindow j hj
    have hlens : b'.bytes.length = b.bytes.length := hlike.length_eq
    change b.bytes[j]? = b'.bytes[j]?
    by_cases hin : j < b.bytes.length
    · rwa [List.getElem?_append_left hin, List.getElem?_append_left (hlens.symm ▸ hin)] at hget
    · rw [List.getElem?_eq_none (not_lt.mp hin), List.getElem?_eq_none]
      exact hlens.trans_le (not_lt.mp hin)
  · exact fun heq => hne (congrArg (· ++ back) heq)

/-- **The checksum catches local corruption.** Two byte strings that differ within eight places have
different checksums. So, whenever `rdb_load` accepts a file, it rejects every file that comes
of it by a change of data within eight places. -/
theorem checksum_catches_corruption (libc : Libc) :
    (∀ (i : ℕ) (as bs : Bytes), AgreeOutside i 8 as bs → as ≠ bs →
        crc64Update 0 as ≠ crc64Update 0 bs) ∧
      ∀ (now : Int64) (file : Bytes) (d : Dict Obj) (coins : Coins),
        (rdbLoad libc now (some file) d coins).2 = true →
          (∃ (b : FileBody) (back : Bytes),
            file = b.bytes ++ (encode 8 b.checksum.toNat ++ back)) ∧
          ∀ (b : FileBody) (back : Bytes),
            file = b.bytes ++ (encode 8 b.checksum.toNat ++ back) →
            ∀ file', Corrupted b file file' → ∀ (now' : Int64) (d' : Dict Obj) (coins' : Coins),
              (rdbLoad libc now' (some file') d' coins').2 = false := by
  refine ⟨fun i as bs h hne => crc64Update_ne 0 h hne, fun now file d coins haccept => ?_⟩
  refine ⟨(rdbLoad_accepts_iff libc now file d coins).mp haccept, ?_⟩
  rintro b back rfl file' hcorrupted now' d' coins'
  obtain ⟨b', rfl, hne⟩ := hcorrupted.body
  rw [(rdbLoad_body libc now' b' _ d' coins').1, decide_eq_false_iff_not]
  rintro ⟨-, hstored⟩
  -- the stored checksum is still that of the old body
  have hlen : (encode 8 b.checksum.toNat).length = 8 := length_encode ..
  rw [List.take_left' hlen, decode_encode_of_lt (UInt64.toNat_lt _)] at hstored
  exact hne (UInt64.toNat_inj.mp hstored).symm

/-- The entry of the string `v` under the key `k`. -/
def oneString : FileBody where
  entries := [⟨ascii "k", 0, .str (ascii "v")⟩]
  fits := by
    intro e he
    obtain rfl := List.mem_singleton.mp he
    exact ⟨(by decide : (ascii "k").length < 2 ^ 32), (by decide : (ascii "v").length < 2 ^ 32)⟩
  count_lt := by decide

/-- The value becomes `w`, and the file is rejected. -/
theorem oneString_corrupted_rejected :
    let file' := oneString.bytes.dropLast ++
      (ascii "w" ++ encode 8 oneString.checksum.toNat)
    (rdbLoad Libc.plain 0 (some file') dictNew fun _ => false).2 = false := by
  intro file'
  obtain ⟨front, hfront⟩ : ∃ front, front = oneString.bytes.dropLast := ⟨_, rfl⟩
  obtain ⟨back, hback⟩ : ∃ back, back = encode 8 oneString.checksum.toNat := ⟨_, rfl⟩
  have hbytes : oneString.bytes = front ++ ascii "v" := by
    rw [hfront]
    decide
  have hfile' : file' = front ++ (ascii "w" ++ back) := by rw [hfront, hback]
  have hlen : (ascii "v").length = (ascii "w").length := by decide
  have hcorrupted : Corrupted oneString (front ++ (ascii "v" ++ back)) file' := by
    rw [hfile']
    refine ⟨fun heq => ?_, ⟨_, agreeOutside_append front back hlen (by decide)⟩, fun j hj => ?_⟩
    · have hmid := List.append_cancel_right (List.append_cancel_left heq)
      exact absurd hmid (by decide)
    · -- the one place that differs is that of the value
      have hne : j ≠ front.length := by
        rintro rfl
        rw [hfront] at hj
        exact hj (by decide)
      have hone : (ascii "v").length ≤ 1 := by decide
      exact ((agreeOutside_append front back hlen hone).get j (by omega)).symm
  have hfile : front ++ (ascii "v" ++ back) = oneString.bytes ++ (back ++ []) := by
    rw [hbytes, List.append_nil, List.append_assoc]
  rw [hback] at hfile
  have haccept : (rdbLoad Libc.plain 0 (some (front ++ (ascii "v" ++ back))) dictNew
      fun _ => false).2 = true :=
    (rdbLoad_accepts_iff Libc.plain 0 _ dictNew _).mpr ⟨oneString, [], by rw [hback, hfile]⟩
  rw [← hback] at hfile
  exact ((checksum_catches_corruption Libc.plain).2 0 _ dictNew _ haccept).2 oneString []
    (by rw [hfile, hback]) file' hcorrupted 0 dictNew _

end Minired
