import Mathlib

/-!
# Shift registers

`shift poly` moves the `w` bits of a register down by one, and adds the polynomial `poly` when a
one falls out. It is linear (`shift_xor`), and when the polynomial has its top bit set no
information is lost (`shift_injective`): the top bit tells what fell out.

`feed` runs a list of symbols of `m` bits through the register. As long as they fit into its `w`
bits, they can be put in all at once (`feed_eq`), so the register remembers each of them. After that
it only shifts. Hence `feed_ne_of_burst`: two lists of symbols that differ in one place only, which
is no wider than the register, end in different states.
-/

namespace ShiftRegister

variable {w m : ℕ} (poly : BitVec w)

/-- One shift. -/
def shift (c : BitVec w) : BitVec w := if c.getLsbD 0 then (c >>> 1) ^^^ poly else c >>> 1

/-- One symbol. -/
def step (c : BitVec w) (b : BitVec m) : BitVec w := (shift poly)^[m] (c ^^^ b.setWidth w)

/-- The symbols one after the other. -/
def feed (c : BitVec w) (bs : List (BitVec m)) : BitVec w := bs.foldl (step poly) c

/-- The symbols side by side, the first in the low bits. -/
def pack (w : ℕ) : List (BitVec m) → BitVec w
  | [] => 0
  | b :: bs => b.setWidth w ^^^ (pack w bs <<< m)

/-! ### The shift -/

/-- **Linearity.** -/
theorem shift_xor (a b : BitVec w) : shift poly (a ^^^ b) = shift poly a ^^^ shift poly b := by
  unfold shift
  rw [BitVec.getLsbD_xor, BitVec.ushiftRight_xor_distrib]
  -- the polynomial is added once, twice or not at all
  cases a.getLsbD 0 <;> cases b.getLsbD 0 <;> ext i hi <;> cases hp : poly[i] <;> simp [hp]

/-- Shifting is linear. -/
theorem shift_iterate_xor (n : ℕ) (a b : BitVec w) :
    (shift poly)^[n] (a ^^^ b) = (shift poly)^[n] a ^^^ (shift poly)^[n] b := by
  induction n generalizing a b with
  | zero => rfl
  | succ n ih => rw [Function.iterate_succ_apply, shift_xor, ih]; rfl

/-- **Nothing is lost**, when the polynomial has its top bit. -/
theorem shift_injective {poly : BitVec w} (hpoly : poly.msb = true) :
    Function.Injective (shift poly) := by
  intro a b hab
  have hw : 0 < w := by
    by_contra hzero
    obtain rfl : w = 0 := by omega
    rw [BitVec.eq_nil poly] at hpoly
    exact absurd hpoly (by decide)
  have htop : ∀ c : BitVec w, (shift poly c).getLsbD (w - 1) = c.getLsbD 0 := by
    intro c
    have hout : c.getLsbD (1 + (w - 1)) = false := BitVec.getLsbD_of_ge c _ (by omega)
    have hmsb : poly.getLsbD (w - 1) = true := by rwa [BitVec.msb_eq_getLsbD_last] at hpoly
    unfold shift
    cases hc : c.getLsbD 0 <;> simp [hout, hmsb]
  have hlow : a.getLsbD 0 = b.getLsbD 0 := by rw [← htop a, hab, htop b]
  -- the other bits have moved down by one
  have hhigh : a >>> 1 = b >>> 1 := by
    unfold shift at hab
    rw [hlow] at hab
    split at hab
    · exact (BitVec.xor_left_inj poly).mp hab
    · exact hab
  refine BitVec.eq_of_getLsbD_eq fun i _ => ?_
  cases i with
  | zero => exact hlow
  | succ i =>
    have hbit := congrArg (fun c => BitVec.getLsbD c i) hhigh
    simpa [Nat.add_comm 1 i] using hbit

/-- It loses nothing if the polynomial has its top bit. -/
theorem shift_iterate_injective {poly : BitVec w} (hpoly : poly.msb = true) (n : ℕ) :
    Function.Injective (shift poly)^[n] := (shift_injective hpoly).iterate n

/-- A register that has room moves back down. -/
theorem shift_shiftLeft {x : BitVec w} (hx : 2 * x.toNat < 2 ^ w) : shift poly (x <<< 1) = x := by
  have hlow : (x <<< 1).getLsbD 0 = false := by simp
  have hdouble : (x <<< 1).toNat = 2 * x.toNat := by
    rw [BitVec.toNat_shiftLeft, Nat.shiftLeft_eq, pow_one, Nat.mul_comm, Nat.mod_eq_of_lt hx]
  rw [shift, hlow, if_neg (by decide)]
  apply BitVec.eq_of_toNat_eq
  rw [BitVec.toNat_ushiftRight, hdouble, Nat.shiftRight_eq_div_pow, pow_one,
    Nat.mul_div_cancel_left _ (by decide)]

/-- It undoes a shift to the left that loses no bit. -/
theorem shift_iterate_shiftLeft (n : ℕ) {x : BitVec w} (hx : 2 ^ n * x.toNat < 2 ^ w) :
    (shift poly)^[n] (x <<< n) = x := by
  induction n with
  | zero => simp
  | succ n ih =>
    have hle : 2 ^ n * x.toNat ≤ 2 ^ (n + 1) * x.toNat :=
      Nat.mul_le_mul_right _ (Nat.pow_le_pow_right (by decide) (Nat.le_succ n))
    have hn : (x <<< n).toNat = 2 ^ n * x.toNat := by
      rw [BitVec.toNat_shiftLeft, Nat.shiftLeft_eq, Nat.mul_comm,
        Nat.mod_eq_of_lt (hle.trans_lt hx)]
    rw [Function.iterate_succ_apply, BitVec.shiftLeft_add, shift_shiftLeft, ih (hle.trans_lt hx)]
    rw [hn]
    calc 2 * (2 ^ n * x.toNat) = 2 ^ (n + 1) * x.toNat := by ring
      _ < 2 ^ w := hx

/-- **With a table.** The low bits decide what is added to the others, which only move down. -/
theorem shift_iterate_split (n : ℕ) (z : BitVec w) :
    (shift poly)^[n] z = (shift poly)^[n] (z ^^^ (z >>> n) <<< n) ^^^ (z >>> n) := by
  have hroom : 2 ^ n * (z >>> n).toNat < 2 ^ w := by
    rw [BitVec.toNat_ushiftRight, Nat.shiftRight_eq_div_pow]
    exact (Nat.mul_div_le _ _).trans_lt z.isLt
  calc (shift poly)^[n] z = (shift poly)^[n] (z ^^^ (z >>> n) <<< n ^^^ (z >>> n) <<< n) := by
        rw [BitVec.xor_assoc, BitVec.xor_self, BitVec.xor_zero]
    _ = (shift poly)^[n] (z ^^^ (z >>> n) <<< n) ^^^ (z >>> n) := by
        rw [shift_iterate_xor poly n _ ((z >>> n) <<< n), shift_iterate_shiftLeft poly n hroom]

/-! ### Symbols -/

/-- Packed words are as large as their bits allow. -/
theorem pack_lt {bs : List (BitVec m)} (hfit : m * bs.length ≤ w) :
    (pack w bs).toNat < 2 ^ (m * bs.length) := by
  induction bs with
  | nil => simp [pack]
  | cons b bs ih =>
    rw [List.length_cons, Nat.mul_succ] at hfit ⊢
    have hrest := ih (Nat.le_of_add_right_le hfit)
    rw [pack, BitVec.toNat_xor]
    refine Nat.xor_lt_two_pow ?_ ?_
    · -- the first symbol is in the low bits
      calc (b.setWidth w).toNat ≤ b.toNat := by
            rw [BitVec.toNat_setWidth]
            exact Nat.mod_le _ _
        _ < 2 ^ m := b.isLt
        _ ≤ 2 ^ (m * bs.length + m) := Nat.pow_le_pow_right (by decide) (Nat.le_add_left _ _)
    · calc (pack w bs <<< m).toNat ≤ (pack w bs).toNat * 2 ^ m := by
            rw [BitVec.toNat_shiftLeft, Nat.shiftLeft_eq]
            exact Nat.mod_le _ _
        _ < 2 ^ (m * bs.length) * 2 ^ m := Nat.mul_lt_mul_of_pos_right hrest (by positivity)
        _ = 2 ^ (m * bs.length + m) := (pow_add ..).symm

/-- The symbols behind the first one move down when it has been shifted out. -/
theorem shift_iterate_pack {b : BitVec m} {bs : List (BitVec m)}
    (hfit : m * (b :: bs).length ≤ w) : (shift poly)^[m] (pack w bs <<< m) = pack w bs := by
  rw [List.length_cons, Nat.mul_succ] at hfit
  refine shift_iterate_shiftLeft poly m ?_
  calc 2 ^ m * (pack w bs).toNat < 2 ^ m * 2 ^ (m * bs.length) :=
        Nat.mul_lt_mul_of_pos_left (pack_lt (Nat.le_of_add_right_le hfit)) (by positivity)
    _ = 2 ^ (m * bs.length + m) := by rw [← pow_add, Nat.add_comm]
    _ ≤ 2 ^ w := Nat.pow_le_pow_right (by decide) hfit

/-- **All at once.** Symbols that fit into the register may be added before it shifts. -/
theorem feed_eq (c : BitVec w) {bs : List (BitVec m)} (hfit : m * bs.length ≤ w) :
    feed poly c bs = (shift poly)^[m * bs.length] (c ^^^ pack w bs) := by
  induction bs generalizing c with
  | nil => simp [feed, pack]
  | cons b bs ih =>
    have hpack := shift_iterate_pack poly hfit
    rw [List.length_cons, Nat.mul_succ] at hfit ⊢
    calc feed poly c (b :: bs) = feed poly (step poly c b) bs := rfl
      _ = (shift poly)^[m * bs.length] (step poly c b ^^^ pack w bs) :=
          ih _ (Nat.le_of_add_right_le hfit)
      _ = (shift poly)^[m * bs.length]
            ((shift poly)^[m] (c ^^^ b.setWidth w ^^^ (pack w bs <<< m))) := by
          rw [shift_iterate_xor poly m, hpack, step]
      _ = (shift poly)^[m * bs.length + m] (c ^^^ pack w (b :: bs)) := by
          rw [Function.iterate_add_apply, pack, BitVec.xor_assoc]

/-- The packed symbols can be told apart. -/
theorem pack_injective {as bs : List (BitVec m)} (hlen : as.length = bs.length)
    (hfit : m * as.length ≤ w) (h : pack w as = pack w bs) : as = bs := by
  induction as generalizing bs with
  | nil => exact (List.length_eq_zero_iff.mp hlen.symm).symm
  | cons a as ih =>
    rcases bs with _ | ⟨b, bs⟩
    · cases hlen
    have hfit' : m * (b :: bs).length ≤ w := hlen ▸ hfit
    have hm : m ≤ w := by
      rw [List.length_cons, Nat.mul_succ] at hfit
      omega
    -- the low bits have the first symbol
    have hab : a = b := by
      refine BitVec.eq_of_getLsbD_eq fun i hi => ?_
      have hbit := congrArg (fun c => BitVec.getLsbD c i) h
      simpa [pack, hi, hi.trans_le hm] using hbit
    subst hab
    have hrest : pack w as <<< m = pack w bs <<< m := by
      rw [pack, pack] at h
      exact (BitVec.xor_right_inj _).mp h
    have hpack : pack w as = pack w bs := by
      rw [← shift_iterate_pack 0 hfit, hrest, shift_iterate_pack 0 hfit']
    rw [ih (Nat.succ.inj hlen) ?_ hpack]
    rw [List.length_cons, Nat.mul_succ] at hfit
    exact Nat.le_of_add_right_le hfit

/-! ### Bursts -/

/-- Words are fed one after the other. -/
theorem feed_append (c : BitVec w) (as bs : List (BitVec m)) :
    feed poly c (as ++ bs) = feed poly (feed poly c as) bs := List.foldl_append

/-- The symbols that follow do not bring two states together. -/
theorem feed_injective {poly : BitVec w} (hpoly : poly.msb = true) (bs : List (BitVec m)) :
    Function.Injective fun c => feed poly c bs := by
  induction bs with
  | nil => exact fun _ _ h => h
  | cons b bs ih =>
    intro c d h
    have hstep : step poly c b = step poly d b := ih h
    exact (BitVec.xor_left_inj _).mp (shift_iterate_injective hpoly m hstep)

/-- **A burst is seen.** Lists of symbols that differ in one place only, no wider than the register,
end in different states. -/
theorem feed_ne_of_burst {poly : BitVec w} (hpoly : poly.msb = true) (c : BitVec w)
    (front back : List (BitVec m)) {as bs : List (BitVec m)} (hlen : as.length = bs.length)
    (hfit : m * as.length ≤ w) (hne : as ≠ bs) :
    feed poly c (front ++ as ++ back) ≠ feed poly c (front ++ bs ++ back) := by
  intro h
  rw [feed_append, feed_append, feed_append, feed_append] at h
  have hmid := feed_injective hpoly back h
  have hfit' : m * bs.length ≤ w := hlen ▸ hfit
  rw [feed_eq poly (feed poly c front) hfit, feed_eq poly (feed poly c front) hfit', hlen] at hmid
  have hpack := (BitVec.xor_right_inj _).mp (shift_iterate_injective hpoly _ hmid)
  exact hne (pack_injective hlen hfit hpack)

end ShiftRegister
