import Mathlib

/-!
# Byte strings and C strings

Keys, values and members are byte strings of any content. The program keeps them in
`std::string`, in `sds` and in `char*` buffers; all of these are `Bytes` here. The NUL
that terminates every such buffer is not stored: reading past the last byte of the list
is reading that NUL.

Code that walks a buffer up to its NUL sees only `cstr b`, the bytes before the first
zero byte. `strcmp` is such code; `cstrKey` is the key it orders by.
-/

namespace Minired

/-- The content of a `std::string`, an `sds` or a `char` buffer. -/
abbrev Bytes := List UInt8

/-- The bytes of an ASCII literal. -/
def ascii (s : String) : Bytes := s.toList.map fun c => c.toNat.toUInt8

/-- The end of a line of the protocol. -/
def crlf : Bytes := [13, 10]

/-- The C string in a buffer: the bytes before the first NUL. -/
def cstr (b : Bytes) : Bytes := b.takeWhile (· ≠ 0)

/-- No byte of the string is NUL. -/
def NulFree (b : Bytes) : Prop := 0 ∉ b

/-- Whether there is a NUL byte can be computed. -/
instance (b : Bytes) : Decidable (NulFree b) := inferInstanceAs (Decidable (0 ∉ b))

/-- `strcmp`: the difference of the first bytes that differ, as `unsigned char`, up to the
first NUL. -/
def strcmp : Bytes → Bytes → Int
  | [], [] => 0
  | [], y :: _ => -(y.toNat : Int)
  | x :: _, [] => x.toNat
  | x :: xs, y :: ys =>
    if x = y then if x = 0 then 0 else strcmp xs ys
    else (x.toNat : Int) - y.toNat

/-- The C string as a list of numbers, ordered lexicographically. -/
def cstrKey (b : Bytes) : List ℕ := (cstr b).map UInt8.toNat

/-- The C string of nothing. -/
@[simp] theorem cstr_nil : cstr [] = [] := rfl

/-- The C string ends in front of the first NUL. -/
theorem cstr_cons (x : UInt8) (xs : Bytes) :
    cstr (x :: xs) = if x = 0 then [] else x :: cstr xs := by
  by_cases hx : x = 0 <;> simp [cstr, hx]

/-- A C string has no NUL in it. -/
theorem nulFree_cstr (b : Bytes) : NulFree (cstr b) := by
  intro h
  simpa using List.mem_takeWhile_imp h

/-- A string without NUL is its own C string. -/
theorem NulFree.cstr_eq {b : Bytes} (h : NulFree b) : cstr b = b := by
  rw [cstr, List.takeWhile_eq_self_iff]
  intro x hx
  have hne : x ≠ 0 := fun hz => h (hz ▸ hx)
  simpa using hne

/-- `cstrKey` loses nothing of the C string. -/
theorem cstrKey_inj {a b : Bytes} : cstrKey a = cstrKey b ↔ cstr a = cstr b :=
  (List.map_injective_iff.mpr fun _ _ h => UInt8.toNat_inj.mp h).eq_iff

/-- The key of a C string, byte by byte. -/
theorem cstrKey_cons (x : UInt8) (xs : Bytes) :
    cstrKey (x :: xs) = if x = 0 then [] else x.toNat :: cstrKey xs := by
  rw [cstrKey, cstr_cons]
  split <;> rfl

/-- A byte that is not NUL is positive. -/
private theorem toNat_pos {x : UInt8} (h : x ≠ 0) : 0 < x.toNat :=
  Nat.pos_of_ne_zero fun hz => h (UInt8.toNat_inj.mp hz)

/-- `strcmp` is negative exactly when the first C string comes first. -/
theorem strcmp_neg_iff (a b : Bytes) : strcmp a b < 0 ↔ cstrKey a < cstrKey b := by
  -- along both strings, up to the first difference or the first NUL
  induction a generalizing b with
  | nil =>
    cases b with
    | nil => simp [strcmp, cstrKey]
    | cons y ys =>
      rw [strcmp, cstrKey_cons]
      by_cases hy : y = 0
      · simp [hy, cstrKey]
      · have hpos := toNat_pos hy
        simp [hy, cstrKey, hpos]
  | cons x xs ih =>
    cases b with
    | nil => simp [strcmp, cstrKey]
    | cons y ys =>
      rw [strcmp, cstrKey_cons, cstrKey_cons]
      by_cases hxy : x = y
      · subst hxy
        by_cases hx : x = 0
        · simp [hx]
        · -- equal characters, and the rest decides
          simp [hx, ih ys]
      · have hne : x.toNat ≠ y.toNat := fun h => hxy (UInt8.toNat_inj.mp h)
        by_cases hx : x = 0
        · -- the first string ends here and is the shorter one
          subst hx
          have hpos := toNat_pos (x := y) (fun h => hxy h.symm)
          have hy : y ≠ 0 := fun h => hxy h.symm
          simp [hxy, hy, hpos]
        · by_cases hy : y = 0
          · subst hy
            simp [hx]
          · -- two characters that differ decide
            simp only [hxy, hx, hy, if_false, List.cons_lt_cons_iff]
            omega

/-- `strcmp` is zero exactly on equal C strings. -/
theorem strcmp_eq_zero_iff (a b : Bytes) : strcmp a b = 0 ↔ cstr a = cstr b := by
  rw [← cstrKey_inj]
  induction a generalizing b with
  | nil =>
    cases b with
    | nil => simp [strcmp]
    | cons y ys =>
      rw [strcmp, cstrKey_cons]
      by_cases hy : y = 0
      · simp [hy, cstrKey]
      · have hpos := (toNat_pos hy).ne'
        simp [hy, hpos, cstrKey]
  | cons x xs ih =>
    cases b with
    | nil =>
      rw [strcmp, cstrKey_cons]
      by_cases hx : x = 0
      · simp [hx, cstrKey]
      · have hpos := (toNat_pos hx).ne'
        simp [hx, hpos, cstrKey]
    | cons y ys =>
      rw [strcmp, cstrKey_cons, cstrKey_cons]
      by_cases hxy : x = y
      · subst hxy
        by_cases hx : x = 0
        · simp [hx]
        · simp [hx, ih ys]
      · -- the strings differ here, whether or not one of them ends
        have hne : x.toNat ≠ y.toNat := fun h => hxy (UInt8.toNat_inj.mp h)
        have hdiff : (x.toNat : Int) - y.toNat ≠ 0 := by omega
        rw [if_neg hxy]
        by_cases hx : x = 0
        · have hy : y ≠ 0 := fun h => hxy (hx.trans h.symm)
          simp [hx, hy, (toNat_pos hy).ne']
        · by_cases hy : y = 0
          · simp [hx, hy, (toNat_pos hx).ne']
          · simp [hx, hy, hne, hdiff]

end Minired
