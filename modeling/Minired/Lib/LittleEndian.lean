import Mathlib

/-!
# Little-endian numbers

`encode w x` are the `w` bytes of `x`, least significant first, and `decode` reads any
number of bytes back. Numbers that do not fit lose their high bytes (`decode_encode`).
-/

namespace LittleEndian

/-- The `w` low bytes of `x`, least significant first. -/
def encode : ℕ → ℕ → List UInt8
  | 0, _ => []
  | w + 1, x => UInt8.ofNat x :: encode w (x / 256)

/-- The number whose bytes these are. -/
def decode : List UInt8 → ℕ
  | [] => 0
  | b :: bs => b.toNat + 256 * decode bs

@[simp] theorem length_encode (w x : ℕ) : (encode w x).length = w := by
  induction w generalizing x with
  | zero => rfl
  | succ w ih => rw [encode, List.length_cons, ih]

/-- The bytes are a number below the power of 256 that has as many places. -/
theorem decode_lt (bs : List UInt8) : decode bs < 256 ^ bs.length := by
  induction bs with
  | nil => exact Nat.one_pos
  | cons b bs ih =>
    have hb : b.toNat < 256 := b.toNat_lt
    rw [decode, List.length_cons, pow_succ']
    omega

/-- Reading back the bytes of a number gives its low part. -/
theorem decode_encode (w x : ℕ) : decode (encode w x) = x % 256 ^ w := by
  induction w generalizing x with
  | zero => rw [encode, decode, pow_zero, Nat.mod_one]
  | succ w ih =>
    have hpow : (256 : ℕ) ^ (w + 1) = 256 * 256 ^ w := pow_succ' 256 w
    rw [encode, decode, ih, hpow, Nat.mod_mul, UInt8.toNat_ofNat']

/-- A number that fits is read back. -/
theorem decode_encode_of_lt {w x : ℕ} (h : x < 256 ^ w) : decode (encode w x) = x := by
  rw [decode_encode, Nat.mod_eq_of_lt h]

/-- The bytes of the number that bytes are read as. -/
theorem encode_decode (bs : List UInt8) : encode bs.length (decode bs) = bs := by
  induction bs with
  | nil => rfl
  | cons b bs ih =>
    have hb : b.toNat < 256 := b.toNat_lt
    have hlow : UInt8.ofNat (b.toNat + 256 * decode bs) = b := by
      apply UInt8.toNat_inj.mp
      rw [UInt8.toNat_ofNat', Nat.add_mul_mod_self_left, Nat.mod_eq_of_lt hb]
    have hhigh : (b.toNat + 256 * decode bs) / 256 = decode bs := by omega
    rw [decode, List.length_cons, encode, hlow, hhigh, ih]

end LittleEndian
