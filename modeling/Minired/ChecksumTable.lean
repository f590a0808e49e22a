import Minired.Checksum

/-!
# The table of the checksum

`crc64_init` fills `crc64_table` once, at the first `Writer` or `Reader` of the process, and
`crc64_update` looks a byte up in it for each byte of its data. Here the table is the array that
the two functions share (`CrcTable`), with the flag that says whether it has been filled.

What the checksum is meant to be needs no table: a register of 64 bits that is shifted eight times
for each byte (`crc64Serial`). **`crc64_table_driven`**: after any number of calls of `crc64_init`,
but one at least, `crc64_update` computes this, and it does not matter how the data is cut into
the pieces of its calls.
-/

namespace Minired

open ShiftRegister

/-- `crc64_table` and `crc64_initialized`. -/
structure CrcTable where
  table : Vector UInt64 256
  initialized : Bool

/-- The two at the start of the process. -/
def CrcTable.start : CrcTable := ⟨Vector.replicate 256 0, false⟩

/-- The inner loop of `crc64_init`. -/
def tableEntry (i : Fin 256) : UInt64 :=
  (List.range 8).foldl (fun crc _ => crc64Shift crc) (UInt64.ofNat i.1)

/-- The iterations of the outer loop for the given indices. -/
def fillTable (table : Vector UInt64 256) (is : List (Fin 256)) : Vector UInt64 256 :=
  is.foldl (fun table i => table.set i.1 (tableEntry i) i.2) table

/-- `crc64_init`. -/
def crc64Init (t : CrcTable) : CrcTable :=
  if t.initialized then t else ⟨fillTable t.table (List.finRange 256), true⟩

/-- `(crc ^ b) & 0xff`, which is an index into the table. -/
def tableIndex (crc : UInt64) (b : UInt8) : Fin 256 :=
  ⟨((crc ^^^ b.toUInt64) &&& 0xff).toNat, by
    rw [UInt64.toNat_and]
    exact Nat.lt_succ_of_le Nat.and_le_right⟩

/-- `crc64_update`, with the table. -/
def CrcTable.update (t : CrcTable) (crc : UInt64) (data : Bytes) : UInt64 :=
  data.foldl (fun crc b => t.table.get (tableIndex crc b) ^^^ (crc >>> 8)) crc

/-- One shift to the right, with the polynomial added when the bit that falls out is one. -/
def serialShift (crc : UInt64) : UInt64 :=
  if crc % 2 = 1 then (crc >>> 1) ^^^ 0xad93d23594c935a9 else crc >>> 1

/-- **The reference.** Each byte is added to the low bits, and then the register is shifted eight
times. -/
def crc64Serial (crc : UInt64) (data : Bytes) : UInt64 :=
  data.foldl (fun crc b => serialShift^[8] (crc ^^^ b.toUInt64)) crc

/-! ### The table is filled -/

/-- The iterations of the inner loop are the shifts of an entry. -/
theorem tableEntry_eq (i : Fin 256) : tableEntry i = crc64Table (UInt64.ofNat i.1) := rfl

/-- The entries that the loop has come to, and the others. -/
theorem get_fillTable (is : List (Fin 256)) (table : Vector UInt64 256) (j : Fin 256) :
    (fillTable table is).get j =
      if j ∈ is then crc64Table (UInt64.ofNat j.1) else table.get j := by
  induction is generalizing table with
  | nil => rfl
  | cons i is ih =>
    have hset : (table.set i.1 (tableEntry i) i.2).get j =
        if i = j then crc64Table (UInt64.ofNat j.1) else table.get j := by
      rw [Vector.get_eq_getElem, Vector.getElem_set]
      by_cases hij : i = j
      · rw [if_pos hij, if_pos (congrArg Fin.val hij), hij, tableEntry_eq]
      · rw [if_neg hij, if_neg (fun h => hij (Fin.ext h))]
        rfl
    rw [fillTable, List.foldl_cons, ← fillTable, ih, hset]
    by_cases hmem : j ∈ is
    · rw [if_pos hmem, if_pos (List.mem_cons_of_mem i hmem)]
    · rw [if_neg hmem]
      refine if_congr ?_ rfl rfl
      rw [List.mem_cons, or_iff_left hmem, eq_comm]

/-- The flag is set, and the entries are those that `crc64_init` computes. -/
structure CrcTable.Filled (t : CrcTable) : Prop where
  initialized : t.initialized = true
  get : ∀ i : Fin 256, t.table.get i = crc64Table (UInt64.ofNat i.1)

/-- The first call fills the table. -/
theorem filled_crc64Init_start : (crc64Init CrcTable.start).Filled := by
  have hfirst : crc64Init CrcTable.start = ⟨fillTable _ (List.finRange 256), true⟩ :=
    if_neg Bool.false_ne_true
  rw [hfirst]
  refine ⟨rfl, fun i => ?_⟩
  rw [get_fillTable, if_pos (List.mem_finRange i)]

/-- Later calls leave it alone. -/
theorem CrcTable.Filled.crc64Init {t : CrcTable} (h : t.Filled) : (Minired.crc64Init t).Filled := by
  unfold Minired.crc64Init
  rw [if_pos h.initialized]
  exact h

/-- After any number of calls the table is filled. -/
theorem filled_iterate (n : ℕ) : (crc64Init^[n + 1] CrcTable.start).Filled := by
  induction n with
  | zero => exact filled_crc64Init_start
  | succ n ih =>
    rw [Function.iterate_succ_apply']
    exact ih.crc64Init

/-! ### The table is used -/

/-- The index is the low byte. -/
theorem ofNat_tableIndex (crc : UInt64) (b : UInt8) :
    UInt64.ofNat (tableIndex crc b).1 = (crc ^^^ b.toUInt64) &&& 0xff := UInt64.ofNat_toNat

/-- With a filled table, a call does what the model of the snapshots takes it for. -/
theorem CrcTable.Filled.update_eq {t : CrcTable} (h : t.Filled) (crc : UInt64) (data : Bytes) :
    t.update crc data = crc64Update crc data := by
  unfold CrcTable.update crc64Update
  refine List.foldl_ext _ _ crc fun crc b _ => ?_
  rw [h.get, ofNat_tableIndex]
  rfl

/-- The shift of the reference is that of `crc64_init`. -/
theorem serialShift_eq : serialShift = crc64Shift := by
  funext crc
  have hlow : crc % 2 = 1 ↔ crc &&& 1 ≠ 0 := by
    rw [← UInt64.toNat_inj, ne_eq, ← UInt64.toNat_inj, UInt64.toNat_mod, UInt64.toNat_and]
    show crc.toNat % 2 = 1 ↔ ¬crc.toNat &&& 1 = 0
    rw [Nat.and_one_is_mod]
    omega
  unfold serialShift crc64Shift
  exact if_congr hlow rfl rfl

/-- The reference is the shift register, fed with the bytes. -/
theorem toBitVec_crc64Serial (crc : UInt64) (data : Bytes) :
    (crc64Serial crc data).toBitVec =
      feed crc64Poly crc.toBitVec (data.map UInt8.toBitVec) := by
  unfold crc64Serial
  rw [serialShift_eq]
  induction data generalizing crc with
  | nil => rfl
  | cons b data ih =>
    have hbyte : (crc64Shift^[8] (crc ^^^ b.toUInt64)).toBitVec =
        (shift crc64Poly)^[8] (crc ^^^ b.toUInt64).toBitVec := toBitVec_crc64Table _
    rw [List.foldl_cons, ih, hbyte]
    rfl

/-- **Bytes looked up in the table** are bytes shifted through the register. -/
theorem crc64Update_eq_serial (crc : UInt64) (data : Bytes) :
    crc64Update crc data = crc64Serial crc data := by
  rw [← UInt64.toBitVec_inj, toBitVec_crc64Update, toBitVec_crc64Serial]

/-- The calls for the pieces of the data, one after the other. -/
theorem CrcTable.foldl_update (t : CrcTable) (crc : UInt64) (pieces : List Bytes) :
    pieces.foldl t.update crc = t.update crc pieces.flatten := by
  induction pieces generalizing crc with
  | nil => rfl
  | cons piece pieces ih =>
    rw [List.foldl_cons, ih, List.flatten_cons]
    unfold CrcTable.update
    rw [List.foldl_append]

/-- **The checksum with its table** is the checksum without one, for every register and all data,
however often `crc64_init` has been called; and the data may be cut into any pieces. -/
theorem crc64_table_driven (n : ℕ) :
    (∀ (crc : UInt64) (data : Bytes),
      (crc64Init^[n + 1] CrcTable.start).update crc data = crc64Serial crc data) ∧
    ∀ (crc : UInt64) (pieces : List Bytes),
      pieces.foldl (crc64Init^[n + 1] CrcTable.start).update crc =
        (crc64Init^[n + 1] CrcTable.start).update crc pieces.flatten := by
  constructor
  · intro crc data
    rw [(filled_iterate n).update_eq]
    exact crc64Update_eq_serial crc data
  · intro crc pieces
    exact CrcTable.foldl_update _ crc pieces

end Minired
