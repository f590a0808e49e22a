import Minired.RdbLayout

/-!
# Complete snapshots

`rdb_load` is to accept snapshots that are complete: a body and its checksum, and no byte behind
it. The checksum is read where the body ends, and nothing looks for more. So the bytes of a
longer, older snapshot that a shorter one has overwritten stay unnoticed: a file is accepted also
when something follows the checksum, and these are the only accepted files that are no complete
snapshots (`accepts_complete_iff`).
-/

namespace Minired

open LittleEndian Layout

/-- The file is a complete snapshot: magic number, version, number of entries, as many well-formed
entries, and the checksum of all this. -/
def CompleteSnapshot (file : Bytes) : Prop :=
  ∃ b : FileBody, file = b.bytes ++ encode 8 b.checksum.toNat

/-- The file is a complete snapshot with something behind the checksum. -/
def Overlong (file : Bytes) : Prop :=
  ∃ front back, CompleteSnapshot front ∧ back ≠ [] ∧ file = front ++ back

/-- The reader stops behind the checksum, so it can be told where a snapshot ends. -/
theorem completeSnapshot_unique {b b' : FileBody} {back back' : Bytes}
    (h : b.bytes ++ (encode 8 b.checksum.toNat ++ back) =
      b'.bytes ++ (encode 8 b'.checksum.toNat ++ back')) : back = back' := by
  have hrest : ∀ (b : FileBody) (back : Bytes),
      (rdbLoad Libc.plain 0 (some (b.bytes ++ (encode 8 b.checksum.toNat ++ back))) dictNew
        fun _ => false).1.reader.rest = back := by
    intro b back
    have hlen : (encode 8 b.checksum.toNat).length = 8 := length_encode ..
    rw [(rdbLoad_body Libc.plain 0 b _ dictNew _).2 (by rw [List.length_append, hlen]; omega),
      List.drop_left' hlen]
  rw [← hrest b back, h, hrest b' back']

/-- What is overlong is not complete. -/
theorem not_complete_of_overlong {file : Bytes} (h : Overlong file) : ¬CompleteSnapshot file := by
  obtain ⟨front, back, ⟨b, rfl⟩, hback, rfl⟩ := h
  rintro ⟨b', hb'⟩
  have hsame : b.bytes ++ (encode 8 b.checksum.toNat ++ back) =
      b'.bytes ++ (encode 8 b'.checksum.toNat ++ []) := by
    rw [List.append_nil, ← hb', List.append_assoc]
  exact hback (completeSnapshot_unique hsame)

/-- **What `rdb_load` accepts** is a complete snapshot if and only if the file has nothing behind a
complete snapshot. -/
theorem accepts_complete_iff (libc : Libc) (now : Int64) (file : Bytes) (d : Dict Obj)
    (coins : Coins) :
    ((rdbLoad libc now (some file) d coins).2 = true → CompleteSnapshot file) ↔
      ¬Overlong file := by
  constructor
  · intro h hover
    refine not_complete_of_overlong hover (h ?_)
    obtain ⟨front, back, ⟨b, rfl⟩, -, rfl⟩ := hover
    exact (rdbLoad_accepts_iff libc now _ d coins).mpr ⟨b, back, List.append_assoc ..⟩
  · intro hover haccept
    obtain ⟨b, back, rfl⟩ := (rdbLoad_accepts_iff libc now file d coins).mp haccept
    -- nothing can be behind the checksum
    cases back with
    | nil => exact ⟨b, by rw [List.append_nil]⟩
    | cons x xs =>
      refine absurd ⟨_, x :: xs, ⟨b, rfl⟩, List.cons_ne_nil x xs, ?_⟩ hover
      rw [List.append_assoc]

/-- The snapshot of an empty database. -/
def emptyBody : FileBody := ⟨[], fun e he => absurd he List.not_mem_nil, by decide⟩

/-- The snapshot of an empty database with one more byte behind it is accepted. -/
theorem overlong_accepted :
    let file := emptyBody.bytes ++ (encode 8 emptyBody.checksum.toNat ++ [0])
    file = [77, 82, 68, 66, 1, 0, 0, 0, 0, 0, 0, 0, 0, 0, 0, 0, 159, 156, 252, 108, 102, 138, 184,
        39, 0] ∧
      (rdbLoad Libc.plain 0 (some file) dictNew fun _ => false).2 = true ∧
      ¬CompleteSnapshot file := by
  intro file
  refine ⟨by decide +kernel,
    (rdbLoad_accepts_iff Libc.plain 0 file dictNew _).mpr ⟨emptyBody, [0], rfl⟩, ?_⟩
  exact not_complete_of_overlong
    ⟨_, [0], ⟨emptyBody, rfl⟩, List.cons_ne_nil 0 [], (List.append_assoc ..).symm⟩

end Minired
