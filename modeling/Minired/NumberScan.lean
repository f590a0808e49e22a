import Minired.Numbers

/-!
# More text behind a number

`strtol` reads on as long as it can, over white space, a sign and digits. Where its scan stops
within the text, the number does not depend on what follows (`strtoll_append`). Where it runs
to the end of the text, more digits change the number: one digit more does so unless the number
is as large as can be (`strtoll_append_one_ne`), and nineteen nines make it that large
(`strtoll_append_nines`). A negative number stays negative.
-/

namespace Minired

/-- The text behind white space and a sign. -/
def scanBody (s : Bytes) : Bytes := (scanSign (s.dropWhile isspace)).2

/-- There is a minus sign. -/
def scanMinus (s : Bytes) : Bool := (scanSign (s.dropWhile isspace)).1

/-- The digits as a number, which is 0 when there are none. -/
def scanNumber (s : Bytes) : ℕ := (scanDigits 0 (scanBody s)).1

/-- Where the scan stops. -/
def scanStop (s : Bytes) : Bytes := (scanDigits 0 (scanBody s)).2

/-- The value of `strtol`, with or without a number. -/
theorem strtoll_value (s : Bytes) :
    (strtoll s).1 = max LLONG_MIN (min LLONG_MAX
      (if scanMinus s then -(scanNumber s : Int) else scanNumber s)) := by
  have hscan : scanInt s =
      if ((scanBody s).head?.map isdigit).getD false then
        some (if scanMinus s then -(scanNumber s : Int) else scanNumber s, scanStop s)
      else none := rfl
  rw [strtoll, hscan]
  by_cases hdigit : ((scanBody s).head?.map isdigit).getD false = true
  · rw [if_pos hdigit]
  · -- no digit, no number
    have hzero : scanNumber s = 0 := by
      rw [scanNumber]
      cases hbody : scanBody s with
      | nil => rfl
      | cons b bs =>
        rw [hbody] at hdigit
        rw [scanDigits, if_neg (show ¬isdigit b = true from hdigit)]
    rw [if_neg hdigit, hzero]
    cases scanMinus s with
    | false => rfl
    | true => rfl

/-- More text than white space begins with the sign, or with what follows it. -/
theorem scanSign_append {s : Bytes} (h : s ≠ []) (x : Bytes) :
    scanSign (s ++ x) = ((scanSign s).1, (scanSign s).2 ++ x) := by
  obtain ⟨b, bs, rfl⟩ := List.exists_cons_of_ne_nil h
  rw [List.cons_append, scanSign, scanSign]
  split_ifs <;> rfl

/-- Digits that are followed by others are read on top of those before them. -/
theorem scanDigits_stop (s x : Bytes) (acc : ℕ) :
    scanDigits acc (s ++ x) =
      if (scanDigits acc s).2 = [] then scanDigits (scanDigits acc s).1 x
      else ((scanDigits acc s).1, (scanDigits acc s).2 ++ x) := by
  induction s generalizing acc with
  | nil => rfl
  | cons b s ih =>
    rw [List.cons_append, scanDigits, scanDigits]
    split_ifs with hdigit hend hend
    · rw [ih, if_pos hend]
    · rw [ih, if_neg hend]
    · cases hend
    · rfl

/-- Reading on does not make the number smaller. -/
theorem le_scanDigits (acc : ℕ) (s : Bytes) : acc ≤ (scanDigits acc s).1 := by
  induction s generalizing acc with
  | nil => exact le_rfl
  | cons b s ih =>
    rw [scanDigits]
    split_ifs
    · exact le_trans (by omega) (ih _)
    · exact le_rfl

section Append

variable {s : Bytes}

/-- Where there is more than white space, the sign stays. -/
theorem scan_append (h : s.dropWhile isspace ≠ []) (x : Bytes) :
    scanMinus (s ++ x) = scanMinus s ∧ scanBody (s ++ x) = scanBody s ++ x := by
  have hdrop : (s ++ x).dropWhile isspace = s.dropWhile isspace ++ x := by
    rw [List.dropWhile_append, if_neg (by simpa using h)]
  rw [scanMinus, scanMinus, scanBody, scanBody, hdrop, scanSign_append h]
  exact ⟨rfl, rfl⟩

/-- A sign is no space. -/
theorem dropWhile_ne_nil_of_scanMinus (h : scanMinus s = true) : s.dropWhile isspace ≠ [] := by
  intro hnil
  rw [scanMinus, hnil] at h
  cases h

/-- Nor is what stops the scan. -/
theorem dropWhile_ne_nil_of_scanStop (h : scanStop s ≠ []) : s.dropWhile isspace ≠ [] := by
  intro hnil
  rw [scanStop, scanBody, hnil] at h
  exact h rfl

/-- **A number that ends** within the text is the same, whatever follows. -/
theorem strtoll_append (h : scanStop s ≠ []) (x : Bytes) :
    (strtoll (s ++ x)).1 = (strtoll s).1 := by
  obtain ⟨hminus, hbody⟩ := scan_append (dropWhile_ne_nil_of_scanStop h) x
  have hstop : ¬(scanDigits 0 (scanBody s)).2 = [] := h
  have hnumber : scanNumber (s ++ x) = scanNumber s := by
    rw [scanNumber, scanNumber, hbody, scanDigits_stop, if_neg hstop]
  rw [strtoll_value, strtoll_value, hminus, hnumber]

/-- Behind a minus sign no number is positive. -/
theorem strtoll_append_minus (h : scanMinus s = true) (x : Bytes) : (strtoll (s ++ x)).1 ≤ 0 := by
  obtain ⟨hminus, -⟩ := scan_append (dropWhile_ne_nil_of_scanMinus h) x
  have hneg : -(scanNumber (s ++ x) : Int) ≤ 0 := Int.neg_nonpos_of_nonneg (Int.natCast_nonneg _)
  rw [strtoll_value, hminus, h, if_pos rfl]
  exact max_le (by decide) ((min_le_right _ _).trans hneg)

/-- **A negative number** stays negative. -/
theorem strtoll_append_neg (h : (strtoll s).1 < 0) (x : Bytes) : (strtoll (s ++ x)).1 < 0 := by
  -- only a minus sign makes a number negative
  have hminus : scanMinus s = true := by
    by_contra hplus
    rw [strtoll_value, if_neg hplus] at h
    have hpos : 0 ≤ min LLONG_MAX (scanNumber s : Int) :=
      le_min (by decide) (Int.natCast_nonneg _)
    exact absurd (hpos.trans (le_max_right _ _)) (not_le.mpr h)
  obtain ⟨hminus', hbody⟩ := scan_append (dropWhile_ne_nil_of_scanMinus hminus) x
  -- more digits can only make it larger behind its sign
  have hle : scanNumber s ≤ scanNumber (s ++ x) := by
    rw [scanNumber, scanNumber, hbody, scanDigits_stop]
    split
    · exact le_scanDigits _ _
    · exact le_rfl
  rw [strtoll_value, hminus, if_pos rfl] at h
  rw [strtoll_value, hminus', hminus, if_pos rfl]
  rw [LLONG_MIN, LLONG_MAX] at h ⊢
  omega

/-- A digit behind the text belongs to the number, if the scan comes to it. -/
theorem scan_append_digit {b : UInt8} (hdigit : isdigit b = true) (x : Bytes) :
    scanMinus (s ++ b :: x) = scanMinus s ∧ scanBody (s ++ b :: x) = scanBody s ++ b :: x := by
  by_cases hblank : s.dropWhile isspace = []
  · obtain ⟨hspace, hminus, hplus⟩ := isdigit_apart hdigit
    have hdrop : (s ++ b :: x).dropWhile isspace = b :: x := by
      rw [List.dropWhile_append, if_pos (by rw [hblank]; rfl),
        List.dropWhile_cons_of_neg (by simp [hspace])]
    -- the text was blank, and the digit is the first that is not
    have hsign : scanSign (b :: x) = (false, b :: x) := by
      rw [scanSign, if_neg hminus, if_neg hplus]
    rw [scanMinus, scanMinus, scanBody, scanBody, hdrop, hblank, hsign]
    exact ⟨rfl, rfl⟩
  · exact scan_append hblank _

/-- A scan that was not stopped goes on with the next digit. -/
theorem scanNumber_append_digit (h : scanStop s = []) {b : UInt8} (hdigit : isdigit b = true)
    (x : Bytes) : scanNumber (s ++ b :: x) = (scanDigits (scanNumber s) (b :: x)).1 := by
  have hstop : (scanDigits 0 (scanBody s)).2 = [] := h
  rw [scanNumber, (scan_append_digit hdigit x).2, scanDigits_stop, if_pos hstop]
  rfl

/-- One digit more. -/
theorem strtoll_append_one (h : scanStop s = []) :
    (strtoll (s ++ [49])).1 = max LLONG_MIN (min LLONG_MAX
      (if scanMinus s then -(10 * scanNumber s + 1 : Int) else 10 * scanNumber s + 1)) := by
  have hone : (scanDigits (scanNumber s) [49]).1 = 10 * scanNumber s + 1 := rfl
  rw [strtoll_value, (scan_append_digit (by decide) []).1, scanNumber_append_digit h (by decide),
    hone, Nat.cast_add, Nat.cast_mul]
  rfl

/-- **A number at the end** of the text changes with one digit more, unless it is as large as
can be. -/
theorem strtoll_append_one_ne (h : scanStop s = []) (hlo : 0 ≤ (strtoll s).1)
    (hhi : (strtoll s).1 < LLONG_MAX) : (strtoll (s ++ [49])).1 ≠ (strtoll s).1 := by
  rw [strtoll_value] at hlo hhi
  rw [strtoll_append_one h, strtoll_value]
  rw [LLONG_MIN, LLONG_MAX] at hlo hhi ⊢
  -- a number that is not negative, with or without a sign
  split_ifs at hlo hhi ⊢ <;> omega

/-- With a one behind it the number is positive. -/
theorem strtoll_append_one_pos (h : scanStop s = []) (hplus : scanMinus s = false) :
    0 < (strtoll (s ++ [49])).1 := by
  rw [strtoll_append_one h, hplus, LLONG_MIN, LLONG_MAX]
  simp only [Bool.false_eq_true, if_false]
  omega

/-- A larger number stays larger. -/
theorem scanDigits_mono {a b : ℕ} (h : a ≤ b) (s : Bytes) :
    (scanDigits a s).1 ≤ (scanDigits b s).1 := by
  induction s generalizing a b with
  | nil => exact h
  | cons c s ih =>
    rw [scanDigits, scanDigits]
    split_ifs
    · exact ih (by omega)
    · exact h

/-- Nineteen nines, which are more than a `long` holds. -/
def nines : Bytes := List.replicate 19 57

/-- Enough nines saturate it. -/
theorem strtoll_append_nines (h : scanStop s = []) (hplus : scanMinus s = false) :
    (strtoll (s ++ nines)).1 = LLONG_MAX := by
  have hnines : nines = 57 :: List.replicate 18 57 := rfl
  -- the nines alone are more than a `long` holds
  have hlarge : 9999999999999999999 ≤ scanNumber (s ++ nines) := by
    rw [hnines, scanNumber_append_digit h (by decide)]
    exact le_trans (by decide) (scanDigits_mono (Nat.zero_le _) _)
  have hsign : scanMinus (s ++ nines) = false := by
    rw [hnines, (scan_append_digit (by decide) _).1, hplus]
  rw [strtoll_value, hsign, LLONG_MIN, LLONG_MAX]
  simp only [Bool.false_eq_true, if_false]
  omega

/-- A scan that reaches the end has seen digits only. -/
theorem isdigit_of_scanDigits {acc : ℕ} {s : Bytes} (h : (scanDigits acc s).2 = []) :
    ∀ b ∈ s, isdigit b = true := by
  induction s generalizing acc with
  | nil => exact fun b hb => absurd hb List.not_mem_nil
  | cons c s ih =>
    rw [scanDigits] at h
    split_ifs at h with hdigit
    exact List.forall_mem_cons.mpr ⟨hdigit, ih h⟩

/-- A scan that runs to the end meets only white space, signs and digits. -/
theorem scanStop_eq_nil_mem (h : scanStop s = []) {b : UInt8} (hb : b ∈ s) :
    isspace b = true ∨ b = 45 ∨ b = 43 ∨ isdigit b = true := by
  have hbody : ∀ c ∈ scanBody s, isdigit c = true := isdigit_of_scanDigits h
  rw [← List.takeWhile_append_dropWhile (p := isspace) (l := s), List.mem_append] at hb
  rcases hb with hspace | hrest
  · -- in the white space in front
    exact Or.inl (List.mem_takeWhile_imp hspace)
  · rw [scanBody] at hbody
    -- behind it, the sign if there is one, and digits up to the end
    cases hdrop : s.dropWhile isspace with
    | nil =>
      rw [hdrop] at hrest
      exact absurd hrest List.not_mem_nil
    | cons c cs =>
      rw [hdrop] at hrest hbody
      rw [scanSign] at hbody
      rcases List.mem_cons.mp hrest with rfl | htail
      · split_ifs at hbody with hminus hplus
        · exact Or.inr (Or.inl hminus)
        · exact Or.inr (Or.inr (Or.inl hplus))
        · exact Or.inr (Or.inr (Or.inr (hbody b List.mem_cons_self)))
      · refine Or.inr (Or.inr (Or.inr (hbody b ?_)))
        split_ifs
        · exact htail
        · exact htail
        · exact hrest

end Append

end Minired
