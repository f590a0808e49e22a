import Minired.RdbCodec
import Minired.Lib.ShiftRegister

/-!
# The checksum of snapshots

`crc64_update` is a shift register of 64 bits, fed with bytes: the table of `crc64_init` has what
eight shifts make of the low byte, and the other bytes only move down (`toBitVec_crc64Byte`). The
polynomial has its top bit set. So the register loses nothing, and a change of at most eight
bytes next to each other is always seen (`crc64Update_ne`).
-/

namespace Minired

open ShiftRegister

/-- The polynomial of `crc64_init`. -/
def crc64Poly : BitVec 64 := 0xad93d23594c935a9

/-- One shift of the source is one of the register. -/
theorem toBitVec_crc64Shift (c : UInt64) :
    (crc64Shift c).toBitVec = shift crc64Poly c.toBitVec := by
  have hlow : (c &&& 1 = 0) ↔ c.toBitVec.getLsbD 0 = false := by
    have hand : (c &&& 1).toBitVec = (BitVec.ofBool (c.toBitVec.getLsbD 0)).setWidth 64 := by
      rw [UInt64.toBitVec_and, ← BitVec.and_one_eq_setWidth_ofBool_getLsbD]
      rfl
    rw [← UInt64.toBitVec_inj, hand]
    cases c.toBitVec.getLsbD 0 <;> decide
  unfold crc64Shift shift
  cases hbit : c.toBitVec.getLsbD 0 with
  | false =>
    rw [if_neg (not_not.mpr (hlow.mpr hbit)), if_neg (by decide)]
    rfl
  | true =>
    have hone : c &&& 1 ≠ 0 := fun h => by rw [hlow.mp h] at hbit; cases hbit
    rw [if_pos hone, if_pos rfl]
    rfl

/-- An entry of the table is eight shifts. -/
theorem toBitVec_crc64Table (i : UInt64) :
    (crc64Table i).toBitVec = (shift crc64Poly)^[8] i.toBitVec :=
  (Function.Semiconj.iterate_right (f := UInt64.toBitVec) toBitVec_crc64Shift 8) i

/-- **One byte** of `crc64_update` is eight shifts. -/
theorem toBitVec_crc64Byte (c : UInt64) (b : UInt8) :
    (crc64Byte c b).toBitVec = step crc64Poly c.toBitVec b.toBitVec := by
  obtain ⟨z, hz⟩ : ∃ z, z = c.toBitVec ^^^ b.toBitVec.setWidth 64 := ⟨_, rfl⟩
  have hlow : ((c ^^^ b.toUInt64) &&& 0xff).toBitVec = z ^^^ (z >>> 8) <<< 8 := by
    have hones : ∀ i < 64, (0xff : BitVec 64).getLsbD i = decide (i < 8) := by decide
    have hand : ((c ^^^ b.toUInt64) &&& 0xff).toBitVec = z &&& 0xff := hz ▸ rfl
    rw [hand]
    refine BitVec.eq_of_getLsbD_eq fun i hi => ?_
    rw [BitVec.getLsbD_and, BitVec.getLsbD_xor, BitVec.getLsbD_shiftLeft, hones i hi]
    by_cases hi8 : i < 8
    · simp [hi8]
    · -- the other bits are taken away
      simp [hi, hi8, Nat.add_sub_of_le (not_lt.mp hi8)]
  have hhigh : (c >>> 8).toBitVec = z >>> 8 := by
    have hshift : (c >>> 8).toBitVec = c.toBitVec >>> 8 := rfl
    rw [hshift, hz, BitVec.ushiftRight_xor_distrib]
    ext i hi
    simp
  rw [crc64Byte, UInt64.toBitVec_xor, toBitVec_crc64Table, hlow, hhigh, step, ← hz]
  exact (shift_iterate_split crc64Poly 8 z).symm

/-- The checksum of the source is the remainder that the register leaves. -/
theorem toBitVec_crc64Update (c : UInt64) (data : Bytes) :
    (crc64Update c data).toBitVec =
      feed crc64Poly c.toBitVec (data.map UInt8.toBitVec) := by
  induction data generalizing c with
  | nil => rfl
  | cons b data ih =>
    show (crc64Update (crc64Byte c b) data).toBitVec = _
    rw [ih, toBitVec_crc64Byte]
    rfl

/-- **A burst of eight bytes** changes the checksum. -/
theorem crc64Update_ne_of_burst (c : UInt64) (front back : Bytes) {as bs : Bytes}
    (hlen : as.length = bs.length) (hfit : as.length ≤ 8) (hne : as ≠ bs) :
    crc64Update c (front ++ as ++ back) ≠ crc64Update c (front ++ bs ++ back) := by
  intro h
  have hreg := congrArg UInt64.toBitVec h
  rw [toBitVec_crc64Update, toBitVec_crc64Update] at hreg
  simp only [List.map_append] at hreg
  have htop : crc64Poly.msb = true := by decide
  refine feed_ne_of_burst htop c.toBitVec _ _ ?_ ?_ ?_ hreg
  · rw [List.length_map, List.length_map, hlen]
  · rw [List.length_map]
    omega
  · exact fun heq => hne (List.map_injective_iff.mpr (fun _ _ => UInt8.toBitVec_inj.mp) heq)

/-! ### Places -/

/-- The lists are of the same length and agree outside the `n` places from `i` on. -/
structure AgreeOutside {α : Type} (i n : ℕ) (as bs : List α) : Prop where
  length_eq : as.length = bs.length
  get : ∀ j, j < i ∨ i + n ≤ j → as[j]? = bs[j]?

/-- Lists with different middles. -/
theorem agreeOutside_append {α : Type} {n : ℕ} (front back : List α) {as bs : List α}
    (hlen : as.length = bs.length) (hfit : as.length ≤ n) :
    AgreeOutside front.length n (front ++ (as ++ back)) (front ++ (bs ++ back)) := by
  refine ⟨by simp only [List.length_append, hlen], fun j hj => ?_⟩
  rcases hj with hj | hj
  · rw [List.getElem?_append_left hj, List.getElem?_append_left hj]
  · rw [List.getElem?_append_right (by omega), List.getElem?_append_right (by omega),
      List.getElem?_append_right (by omega), List.getElem?_append_right (by omega), hlen]

/-- **The checksum sees** every change within eight places. -/
theorem crc64Update_ne (c : UInt64) {i : ℕ} {as bs : Bytes} (h : AgreeOutside i 8 as bs)
    (hne : as ≠ bs) : crc64Update c as ≠ crc64Update c bs := by
  have hfront : as.take i = bs.take i := by
    refine List.ext_getElem? fun j => ?_
    rw [List.getElem?_take, List.getElem?_take]
    split_ifs with hj
    · exact h.get j (Or.inl hj)
    · rfl
  have hback : as.drop (i + 8) = bs.drop (i + 8) := by
    refine List.ext_getElem? fun j => ?_
    rw [List.getElem?_drop, List.getElem?_drop]
    exact h.get _ (Or.inr (Nat.le_add_right _ _))
  have hsplit : ∀ cs : Bytes, cs = cs.take i ++ (cs.drop i).take 8 ++ cs.drop (i + 8) := by
    intro cs
    rw [← List.drop_drop, List.append_assoc, List.take_append_drop, List.take_append_drop]
  rw [hsplit as, hsplit bs, hfront, hback]
  refine crc64Update_ne_of_burst c _ _ ?_ (List.length_take_le _ _) fun hmid => hne ?_
  · rw [List.length_take, List.length_take, List.length_drop, List.length_drop, h.length_eq]
  · rw [hsplit as, hsplit bs, hfront, hback, hmid]

end Minired
