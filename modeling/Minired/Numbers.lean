import Minired.Bytes
import Minired.Double

/-!
# Numbers and their texts

The integer conversions of the C library, and signed 64-bit arithmetic.

* `decimal`, `decimalInt` — `std::to_string` for `size_t` and `long long`;
* `scanInt` — the subject sequence of `strtol`: white space, a sign, decimal digits;
* `strtoll` — its value, saturated to 64 bits, and the rest of the text. `strtol` is the
  same function, since `long` has 64 bits;
* `stoll` — `std::stoll` and `std::stol`, which throw instead of saturating;
* `int64` — the result of a signed 64-bit operation, undefined when it does not fit.

The conversions between scores and text stay a parameter, `Libc`, with `Libc.Exact` for
the assumption that printing 17 significant digits and reading them back is exact.
-/

namespace Minired

/-- What can keep a handler from returning: an exception of a numeric conversion, or a
signed overflow, whose behaviour is undefined. -/
inductive Fault
  | invalidArgument
  | outOfRange
  | signedOverflow
deriving DecidableEq

/-- `std::to_string` of an unsigned number. -/
def decimal (n : ℕ) : Bytes := (Nat.toDigits 10 n).map fun c => c.toNat.toUInt8

/-- `std::to_string` of a signed number, and `%lld`. -/
def decimalInt (z : Int) : Bytes :=
  if z < 0 then ascii "-" ++ decimal z.natAbs else decimal z.natAbs

/-- `isspace` in the C locale. -/
def isspace (b : UInt8) : Bool := b = 32 || (9 ≤ b && b ≤ 13)

/-- `isdigit`. -/
def isdigit (b : UInt8) : Bool := 48 ≤ b && b ≤ 57

/-- Read digits on top of the value read so far; stop at the first other byte. -/
def scanDigits : ℕ → Bytes → ℕ × Bytes
  | acc, [] => (acc, [])
  | acc, b :: bs =>
    if isdigit b then scanDigits (10 * acc + (b.toNat - 48)) bs else (acc, b :: bs)

/-- An optional sign in front of a number. -/
def scanSign : Bytes → Bool × Bytes
  | [] => (false, [])
  | b :: bs => if b = 45 then (true, bs) else if b = 43 then (false, bs) else (false, b :: bs)

/-- The number at the front of a text and the rest behind it, if there is a number. -/
def scanInt (s : Bytes) : Option (Int × Bytes) :=
  let r := scanSign (s.dropWhile isspace)
  if (r.2.head?.map isdigit).getD false then
    let d := scanDigits 0 r.2
    some (if r.1 then -(d.1 : Int) else d.1, d.2)
  else none

/-- The largest `long long`. -/
def LLONG_MAX : Int := 2 ^ 63 - 1

/-- The smallest `long long`. -/
def LLONG_MIN : Int := -2 ^ 63

/-- `strtoll` in base 10: the saturated value, and the text at the end pointer. -/
def strtoll (s : Bytes) : Int × Bytes :=
  match scanInt s with
  | none => (0, s)
  | some (v, rest) => (max LLONG_MIN (min LLONG_MAX v), rest)

/-- `std::stoll` and `std::stol`. -/
def stoll (s : Bytes) : Except Fault Int :=
  match scanInt s with
  | none => .error .invalidArgument
  | some (v, _) => if LLONG_MIN ≤ v ∧ v ≤ LLONG_MAX then .ok v else .error .outOfRange

/-- A signed 64-bit operation with mathematical result `v`. -/
def int64 (v : Int) : Except Fault Int :=
  if LLONG_MIN ≤ v ∧ v ≤ LLONG_MAX then .ok v else .error .signedOverflow

/-- What is converted has 64 bits. -/
theorem stoll_bounds {s : Bytes} {n : Int} (h : stoll s = .ok n) :
    LLONG_MIN ≤ n ∧ n ≤ LLONG_MAX := by
  unfold stoll at h
  split at h
  · cases h
  · split_ifs at h with hfits
    obtain rfl := Except.ok.inj h
    exact hfits

/-- A sum that fits is computed. -/
theorem int64_of_fits {v : Int} (h : LLONG_MIN ≤ v ∧ v ≤ LLONG_MAX) : int64 v = .ok v := if_pos h

/-- One that does not overflows. -/
theorem int64_of_not_fits {v : Int} (h : ¬(LLONG_MIN ≤ v ∧ v ≤ LLONG_MAX)) :
    int64 v = .error .signedOverflow := if_neg h

/-! ### Printing and scanning back -/

/-- A digit is a byte that is one. -/
theorem isdigit_of_char {c : Char} (hc : c.isDigit = true) :
    isdigit c.toNat.toUInt8 = true ∧ c.toNat.toUInt8.toNat = c.toNat := by
  have h := hc
  simp only [Char.isDigit, Bool.and_eq_true, decide_eq_true_eq, UInt32.le_iff_toNat_le] at h
  have hlo : 48 ≤ c.toNat := h.1
  have hhi : c.toNat ≤ 57 := h.2
  have hsmall : c.toNat.toUInt8.toNat = c.toNat := by
    rw [Nat.toUInt8, UInt8.toNat_ofNat']
    omega
  refine ⟨?_, hsmall⟩
  rw [isdigit, Bool.and_eq_true, decide_eq_true_eq, decide_eq_true_eq, UInt8.le_iff_toNat_le,
    UInt8.le_iff_toNat_le, hsmall]
  exact ⟨hlo, hhi⟩

/-- Scanning digits reads their number and stops behind them. -/
theorem scanDigits_chars (cs : List Char) (hcs : ∀ c ∈ cs, c.isDigit = true) (acc : ℕ)
    {rest : Bytes} (hrest : ∀ b ∈ rest.head?, isdigit b = false) :
    scanDigits acc (cs.map (fun c => c.toNat.toUInt8) ++ rest) =
      (Nat.ofDigitChars 10 cs acc, rest) := by
  induction cs generalizing acc with
  | nil =>
    cases rest with
    | nil => rfl
    | cons b bs =>
      -- the scan stops at the first byte that is no digit
      have hb : isdigit b = false := hrest b rfl
      rw [List.map_nil, List.nil_append, scanDigits, hb, Nat.ofDigitChars_nil]
      rfl
  | cons c cs ih =>
    obtain ⟨hdigit, hnat⟩ := isdigit_of_char (hcs c List.mem_cons_self)
    rw [List.map_cons, List.cons_append, scanDigits, if_pos hdigit, hnat, Nat.ofDigitChars_cons,
      ih (fun d hd => hcs d (List.mem_cons_of_mem c hd))]
    rfl

/-- A number is written in digits. -/
theorem decimal_digits (n : ℕ) : ∀ c ∈ Nat.toDigits 10 n, c.isDigit = true :=
  fun _ hc => Nat.isDigit_of_mem_toDigits (by decide) (by decide) hc

/-- A printed number scans back, whatever follows it, unless that is a digit. -/
theorem scanDigits_decimal (n : ℕ) {rest : Bytes} (hrest : ∀ b ∈ rest.head?, isdigit b = false) :
    scanDigits 0 (decimal n ++ rest) = (n, rest) := by
  rw [decimal, scanDigits_chars _ (decimal_digits n) 0 hrest, Nat.ofDigitChars_ten_toDigits]

/-- Different numbers are printed differently. -/
theorem decimal_injective : Function.Injective decimal := by
  intro m n h
  have hend : ∀ b ∈ ([] : Bytes).head?, isdigit b = false := by simp
  have hm : scanDigits 0 (decimal m ++ []) = (m, []) := scanDigits_decimal m hend
  rw [h, scanDigits_decimal n hend] at hm
  exact (Prod.mk.inj hm).1.symm

/-- A printed number starts with a digit. -/
theorem decimal_eq_cons (n : ℕ) : ∃ b bs, decimal n = b :: bs ∧ isdigit b = true := by
  cases h : Nat.toDigits 10 n with
  | nil => exact absurd h Nat.toDigits_ne_nil
  | cons c cs =>
    refine ⟨_, _, by rw [decimal, h, List.map_cons], ?_⟩
    exact (isdigit_of_char (decimal_digits n c (h ▸ List.mem_cons_self))).1

/-- A digit is no white space and no sign. -/
theorem isdigit_apart {b : UInt8} (hdigit : isdigit b = true) :
    isspace b = false ∧ b ≠ 45 ∧ b ≠ 43 := by
  rw [isdigit, Bool.and_eq_true, decide_eq_true_eq, decide_eq_true_eq, UInt8.le_iff_toNat_le,
    UInt8.le_iff_toNat_le] at hdigit
  have hlo : 48 ≤ b.toNat := hdigit.1
  have hne : ∀ c : UInt8, c.toNat < 48 → b ≠ c := by
    rintro c hc rfl
    omega
  refine ⟨?_, hne 45 (by decide), hne 43 (by decide)⟩
  rw [isspace, Bool.or_eq_false_iff, Bool.and_eq_false_iff, decide_eq_false_iff_not,
    decide_eq_false_iff_not, decide_eq_false_iff_not]
  -- white space ends at 13, and the digits begin at 48
  refine ⟨hne 32 (by decide), Or.inr fun h => ?_⟩
  have h13 : b.toNat ≤ 13 := UInt8.le_iff_toNat_le.mp h
  omega

/-- A scan in front of a digit starts with it. -/
theorem scanInt_of_digit {b : UInt8} (hdigit : isdigit b = true) (bs : Bytes) :
    scanInt (b :: bs) = some (((scanDigits 0 (b :: bs)).1 : Int), (scanDigits 0 (b :: bs)).2) := by
  obtain ⟨hspace, hminus, hplus⟩ := isdigit_apart hdigit
  have hsign : scanSign ((b :: bs).dropWhile isspace) = (false, b :: bs) := by
    rw [List.dropWhile_cons_of_neg (by simp [hspace]), scanSign, if_neg hminus, if_neg hplus]
  rw [scanInt, hsign]
  simp only [List.head?_cons, Option.map_some, hdigit, Option.getD_some, if_true]
  rfl

/-- A number that was written is scanned again. -/
theorem scanInt_decimal (n : ℕ) {rest : Bytes} (hrest : ∀ b ∈ rest.head?, isdigit b = false) :
    scanInt (decimal n ++ rest) = some ((n : Int), rest) := by
  have hscan := scanDigits_decimal n hrest
  obtain ⟨b, bs, hdec, hdigit⟩ := decimal_eq_cons n
  rw [hdec, List.cons_append] at hscan ⊢
  rw [scanInt_of_digit hdigit, hscan]

/-- Digits are scanned up to the first byte that is none. -/
theorem scanDigits_append {digits : Bytes} (hdigits : ∀ b ∈ digits, isdigit b = true)
    {rest : Bytes} (hrest : ∀ b ∈ rest.head?, isdigit b = false) (acc : ℕ) :
    scanDigits acc (digits ++ rest) = ((scanDigits acc digits).1, rest) := by
  induction digits generalizing acc with
  | nil =>
    cases rest with
    | nil => rfl
    | cons b rest =>
      -- the scan stops at once
      have hb : isdigit b = false := hrest b rfl
      show scanDigits acc (b :: rest) = (acc, b :: rest)
      rw [scanDigits, hb]
      rfl
  | cons b digits ih =>
    have hb := hdigits b List.mem_cons_self
    rw [List.cons_append, scanDigits, scanDigits, if_pos hb, if_pos hb,
      ih fun c hc => hdigits c (List.mem_cons_of_mem b hc)]

/-- The number that `strtol` reads where there are digits only. -/
theorem strtoll_digits {digits : Bytes} (hne : digits ≠ [])
    (hdigits : ∀ b ∈ digits, isdigit b = true) {rest : Bytes}
    (hrest : ∀ b ∈ rest.head?, isdigit b = false) :
    (strtoll (digits ++ rest)).1 = min LLONG_MAX ((scanDigits 0 digits).1 : Int) := by
  obtain ⟨b, bs, rfl⟩ := List.exists_cons_of_ne_nil hne
  have hscan := scanDigits_append hdigits hrest 0
  -- the lower bound of a `long` plays no part
  have hmin : LLONG_MIN ≤ min LLONG_MAX ((scanDigits 0 (b :: bs)).1 : Int) :=
    le_min (by decide) (le_trans (by decide) (Int.natCast_nonneg _))
  rw [List.cons_append] at hscan ⊢
  rw [strtoll, scanInt_of_digit (hdigits b List.mem_cons_self), hscan]
  exact max_eq_right hmin

/-- A printed number that fits is read back by `strtol`. -/
theorem strtoll_decimal {n : ℕ} (hn : (n : Int) ≤ LLONG_MAX) {rest : Bytes}
    (hrest : ∀ b ∈ rest.head?, isdigit b = false) :
    strtoll (decimal n ++ rest) = ((n : Int), rest) := by
  have hmin : LLONG_MIN ≤ (n : Int) := le_trans (by decide) (Int.natCast_nonneg n)
  rw [strtoll, scanInt_decimal n hrest]
  simp only [min_eq_right hn, max_eq_right hmin]

/-! ### Scores and their texts -/

/-- The conversions between scores and text. -/
structure Libc where
  /-- `snprintf` with `%.17g`. -/
  printG17 : Double → Bytes
  /-- `strtod` on a whole text. -/
  strtod : Bytes → Double
  /-- `std::stod`. -/
  stod : Bytes → Except Fault Double

/-- Printing a score with 17 significant digits and reading it back is exact. A NaN is
read back as a NaN. -/
structure Libc.Exact (libc : Libc) : Prop where
  number : ∀ x, x.isNaN = false → libc.strtod (libc.printG17 x) = x
  nan : ∀ x, x.isNaN = true → (libc.strtod (libc.printG17 x)).isNaN = true

/-- Conversions that print 0, 1 and the NaNs as C does, and the other scores as the number
of their bits behind a letter. They show that `Libc.Exact` can be met. -/
def Libc.plain : Libc where
  printG17 := fun x =>
    if x = .one then ascii "1" else if x = ⟨0⟩ then ascii "0"
    else if x.isNaN then ascii "nan" else ascii "b" ++ decimal x.bits.toNat
  strtod := fun s =>
    if s = ascii "1" then .one else if s = ascii "0" then ⟨0⟩
    else if s = ascii "nan" then .nan else ⟨(scanDigits 0 (s.drop 1)).1.toUInt64⟩
  stod := fun s =>
    if s = ascii "1" then .ok .one else if s = ascii "0" then .ok ⟨0⟩
    else if s = ascii "nan" then .ok .nan else .error .invalidArgument

/-- The library that examples run on is exact. -/
theorem Libc.plain_exact : Libc.plain.Exact where
  number := by
    intro x hx
    by_cases hone : x = .one
    · subst hone
      decide
    by_cases hzero : x = ⟨0⟩
    · subst hzero
      decide
    have hend : ∀ b ∈ ([] : Bytes).head?, isdigit b = false := by simp
    have hscan : scanDigits 0 (decimal x.bits.toNat) = (x.bits.toNat, []) := by
      simpa using scanDigits_decimal x.bits.toNat hend
    -- the letter `b` in front keeps the text apart from the three others
    have htext : ∀ s : Bytes, s.head? ≠ some 98 → ascii "b" ++ decimal x.bits.toNat ≠ s := by
      rintro _ hs rfl
      exact hs rfl
    simp only [Libc.plain, hone, hzero, hx, if_false, Bool.false_eq_true,
      htext (ascii "1") (by decide), htext (ascii "0") (by decide),
      htext (ascii "nan") (by decide)]
    show Double.mk (scanDigits 0 (decimal x.bits.toNat)).1.toUInt64 = x
    rw [hscan]
    simp
  nan := by
    intro x hx
    have hone : x ≠ .one := by
      rintro rfl
      exact absurd hx (by decide)
    have hzero : x ≠ ⟨0⟩ := by
      rintro rfl
      exact absurd hx (by decide)
    simp only [Libc.plain, hone, hzero, hx, if_false, if_true]
    decide

end Minired
