import Mathlib.Data.List.Basic
import Mathlib.Logic.Function.Iterate

/-!
# Sweeps that look at a bounded number of elements

A sweep goes over a list from the front and looks at the first `n` elements that are eligible,
`p`; of these it removes the ones that are due, `q`. What is eligible and not due stays, and it is
looked at again in the next pass.

`Reaches n` is the condition that no due element stands behind `n` elements that are eligible and
not due. It is what passes of the sweep keep, in both directions (`reaches_pass_iff`); under it
each pass removes something (`length_pass_lt`), and without it some due element stays for ever.
So **it is exactly when the passes finally remove everything that is due**
(`exists_iterate_clean_iff`).
-/

namespace BoundedSweep

variable {α : Type*} {p q : α → Bool} {n m : ℕ} {xs : List α} {x : α}

/-- One pass that looks at `n` eligible elements. -/
def pass (p q : α → Bool) : ℕ → List α → List α
  | 0, xs => xs
  | _ + 1, [] => []
  | n + 1, x :: xs =>
    if p x then
      if q x then pass p q n xs else x :: pass p q n xs
    else x :: pass p q (n + 1) xs

/-- Eligible, and not due. -/
def stays (p q : α → Bool) (x : α) : Bool := p x && !q x

/-- No due element has `n` elements in front of it that are eligible and not due. -/
def Reaches (p q : α → Bool) (n : ℕ) (xs : List α) : Prop :=
  ∀ front x back, xs = front ++ x :: back → q x = true → front.countP (stays p q) < n

@[simp] theorem pass_nil (n : ℕ) : pass p q n [] = [] := by cases n <;> rfl

@[simp] theorem pass_zero (xs : List α) : pass p q 0 xs = xs := by cases xs <;> rfl

/-- An element that is not eligible is passed by. -/
theorem pass_cons_of_not (hx : p x = false) : pass p q n (x :: xs) = x :: pass p q n xs := by
  cases n with
  | zero => rw [pass_zero, pass_zero]
  | succ n => rw [pass, if_neg (by rw [hx]; exact Bool.false_ne_true)]

/-- A due element is removed. -/
theorem pass_cons_of_due (hp : p x = true) (hq : q x = true) :
    pass p q (n + 1) (x :: xs) = pass p q n xs := by
  rw [pass, if_pos hp, if_pos hq]

/-- One that is eligible and not due is looked at. -/
theorem pass_cons_of_stays (hp : p x = true) (hq : q x = false) :
    pass p q (n + 1) (x :: xs) = x :: pass p q n xs := by
  rw [pass, if_pos hp, if_neg (by rw [hq]; exact Bool.false_ne_true)]

/-- What remains was there. -/
theorem pass_sublist (n : ℕ) (xs : List α) : List.Sublist (pass p q n xs) xs := by
  induction n, xs using pass.induct (p := p) (q := q) with
  | case1 xs =>
    rw [pass_zero]
  | case2 n => exact List.Sublist.refl []
  | case3 n x xs hp hq ih =>
    rw [pass_cons_of_due hp hq]
    exact ih.cons x
  | case4 n x xs hp hq ih =>
    rw [pass_cons_of_stays hp (by simpa using hq)]
    exact ih.cons_cons x
  | case5 n x xs hp ih =>
    rw [pass_cons_of_not (by simpa using hp)]
    exact ih.cons_cons x

/-- **A pass as a filter**: it removes what is due among the first eligible elements. -/
theorem pass_eq_filter {β : Type*} [DecidableEq β] (key : α → β) (n : ℕ) (xs : List α)
    (hxs : (xs.map key).Nodup) :
    pass p q n xs =
      xs.filter fun x => !(decide (key x ∈ ((xs.filter p).take n).map key) && q x) := by
  induction n, xs using pass.induct (p := p) (q := q) with
  | case1 xs =>
    rw [pass_zero]
    exact (List.filter_eq_self.mpr fun x _ => by simp).symm
  | case2 n => rfl
  | case3 n x xs hp hq ih =>
    -- due, and taken out: its key is no other's
    rw [List.map_cons, List.nodup_cons] at hxs
    rw [pass_cons_of_due hp hq, ih hxs.2, List.filter_cons_of_pos hp, List.take_succ_cons,
      List.map_cons, List.filter_cons_of_neg (by simp [hq])]
    refine List.filter_congr fun y hy => ?_
    have hne : key y ≠ key x := fun h => hxs.1 (h ▸ List.mem_map_of_mem hy)
    simp [hne]
  | case4 n x xs hp hq ih =>
    -- examined, and left
    rw [List.map_cons, List.nodup_cons] at hxs
    rw [pass_cons_of_stays hp (by simpa using hq), ih hxs.2, List.filter_cons_of_pos hp,
      List.take_succ_cons, List.map_cons, List.filter_cons_of_pos (by simp [hq])]
    congr 1
    refine List.filter_congr fun y hy => ?_
    have hne : key y ≠ key x := fun h => hxs.1 (h ▸ List.mem_map_of_mem hy)
    simp [hne]
  | case5 n x xs hp ih =>
    -- passed over, which does not count
    rw [List.map_cons, List.nodup_cons] at hxs
    have hsub : List.Sublist ((xs.filter p).take (n + 1)) xs :=
      (List.take_sublist _ _).trans List.filter_sublist
    have hkey : key x ∉ ((xs.filter p).take (n + 1)).map key := fun h =>
      hxs.1 ((hsub.map key).subset h)
    rw [pass_cons_of_not (by simpa using hp), ih hxs.2, List.filter_cons_of_neg hp,
      List.filter_cons_of_pos (by rw [decide_eq_false hkey]; rfl)]

/-! ### What the passes keep -/

/-- The condition, element by element. -/
theorem reaches_cons :
    Reaches p q n (x :: xs) ↔
      (q x = true → 0 < n) ∧ Reaches p q (n - (if stays p q x then 1 else 0)) xs := by
  constructor
  · intro h
    refine ⟨fun hq => h [] x xs rfl hq, fun front y back hsplit hy => ?_⟩
    have hcount := h (x :: front) y back (by rw [hsplit]; rfl) hy
    rw [List.countP_cons] at hcount
    omega
  · rintro ⟨hhead, htail⟩ front y back hsplit hy
    cases front with
    | nil =>
      obtain ⟨rfl, -⟩ := List.cons.inj hsplit
      exact hhead hy
    | cons z front =>
      obtain ⟨rfl, hrest⟩ := List.cons.inj hsplit
      have hcount := htail front y back hrest hy
      rw [List.countP_cons]
      omega

/-- Nothing that is due is in front of no elements at all. -/
theorem Reaches.zero (h : Reaches p q 0 xs) : ∀ x ∈ xs, q x = false := by
  intro x hx
  obtain ⟨front, back, hsplit⟩ := List.append_of_mem hx
  by_contra hq
  exact absurd (h front x back hsplit (by simpa using hq)) (Nat.not_lt_zero _)

/-- A list without due elements. -/
theorem Reaches.of_clean (h : ∀ x ∈ xs, q x = false) : Reaches p q n xs := by
  intro front x back hsplit hq
  have hmem : x ∈ xs := by
    rw [hsplit]
    simp
  exact absurd hq (by rw [h x hmem]; exact Bool.false_ne_true)

section Passes

variable (hqp : ∀ x, q x = true → p x = true)

include hqp

/-- **The condition is not changed by a pass** that looks at no more elements than it allows. -/
theorem reaches_pass_iff (hm : m ≤ n) : Reaches p q n (pass p q m xs) ↔ Reaches p q n xs := by
  induction xs generalizing n m with
  | nil => rw [pass_nil]
  | cons x xs ih =>
    cases m with
    | zero => rw [pass_zero]
    | succ m =>
      rcases hp : p x with _ | _
      · -- not eligible, so it is not due either
        have hq : q x = false := by
          by_contra hq
          rw [hqp x (by simpa using hq)] at hp
          cases hp
        rw [pass_cons_of_not hp, reaches_cons, reaches_cons, stays, hp, hq, Bool.false_and,
          if_neg Bool.false_ne_true, ih (by omega)]
      · rcases hq : q x with _ | _
        · rw [pass_cons_of_stays hp hq, reaches_cons, reaches_cons, stays, hp, hq, Bool.not_false,
            Bool.true_and, if_pos rfl, ih (by omega)]
        · -- a due element goes; the others keep their distance
          rw [pass_cons_of_due hp hq, reaches_cons, stays, hp, hq, Bool.not_true, Bool.and_false,
            if_neg Bool.false_ne_true, ih (by omega)]
          exact ⟨fun h => ⟨fun _ => by omega, h⟩, And.right⟩

/-- **Progress.** Under the condition a pass removes something, if something is due. -/
theorem length_pass_lt (h : Reaches p q n xs) (hdue : ∃ x ∈ xs, q x = true) :
    (pass p q n xs).length < xs.length := by
  induction xs generalizing n with
  | nil => simp at hdue
  | cons x xs ih =>
    obtain ⟨hhead, htail⟩ := reaches_cons.mp h
    have hrest : q x = false → ∃ y ∈ xs, q y = true := by
      intro hx
      obtain ⟨y, hy, hqy⟩ := hdue
      rcases List.mem_cons.mp hy with rfl | hmem
      · rw [hx] at hqy
        cases hqy
      · exact ⟨y, hmem, hqy⟩
    rcases hq : q x with _ | _
    · rcases hp : p x with _ | _
      · rw [stays, hp, Bool.false_and, if_neg Bool.false_ne_true] at htail
        rw [pass_cons_of_not hp]
        exact Nat.succ_lt_succ (ih htail (hrest hq))
      · rw [stays, hp, hq, Bool.not_false, Bool.true_and, if_pos rfl] at htail
        cases n with
        | zero =>
          -- nothing may be due then
          obtain ⟨y, hy, hqy⟩ := hrest hq
          rw [Reaches.zero htail y hy] at hqy
          cases hqy
        | succ n =>
          rw [pass_cons_of_stays hp hq]
          exact Nat.succ_lt_succ (ih htail (hrest hq))
    · obtain ⟨k, rfl⟩ := Nat.exists_eq_add_of_lt (hhead hq)
      rw [Nat.zero_add, pass_cons_of_due (hqp x hq) hq]
      exact Nat.lt_succ_of_le (pass_sublist _ _).length_le

/-- What is removed is due. -/
theorem exists_removed {β : Type*} [DecidableEq β] (key : α → β) (hxs : (xs.map key).Nodup)
    (h : Reaches p q n xs) (hdue : ∃ x ∈ xs, q x = true) :
    ∃ x ∈ xs, q x = true ∧ x ∉ pass p q n xs := by
  have hlt := length_pass_lt hqp h hdue
  rw [pass_eq_filter key n xs hxs] at hlt ⊢
  obtain ⟨x, hx, hgone⟩ := List.length_filter_lt_length_iff_exists.mp hlt
  refine ⟨x, hx, ?_, fun hmem => hgone (List.mem_filter.mp hmem).2⟩
  by_contra hq
  exact hgone (by simp [hq])

/-- **The passes finally remove everything that is due exactly when the condition holds.** -/
theorem exists_iterate_clean_iff :
    (∃ k, ∀ x ∈ (pass p q n)^[k] xs, q x = false) ↔ Reaches p q n xs := by
  constructor
  · rintro ⟨k, hclean⟩
    -- the condition holds at the end, and so it did before each pass
    have hback : ∀ k xs, Reaches p q n ((pass p q n)^[k] xs) → Reaches p q n xs := by
      intro k
      induction k with
      | zero => exact fun _ h => h
      | succ k ih => exact fun xs h => (reaches_pass_iff hqp n.le_refl).mp (ih (pass p q n xs) h)
    exact hback k xs (.of_clean hclean)
  · -- by induction on what is left
    intro h
    induction hlen : xs.length using Nat.strongRecOn generalizing xs with
    | _ len ih =>
      by_cases hdue : ∃ x ∈ xs, q x = true
      · have hlt := length_pass_lt hqp h hdue
        obtain ⟨k, hk⟩ := ih _ (hlen ▸ hlt) ((reaches_pass_iff hqp n.le_refl).mpr h) rfl
        exact ⟨k + 1, hk⟩
      · push Not at hdue
        exact ⟨0, fun x hx => by simpa using hdue x hx⟩

end Passes

end BoundedSweep
