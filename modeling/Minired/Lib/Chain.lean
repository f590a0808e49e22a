import Mathlib

/-!
# Chains of addresses behind a successor function

A pointer structure is seen here as a function `next` from an address to the address
its pointer holds, `none` for null. `Linked next x ys` says that following `next` from
`x` visits exactly `ys` and then reaches null.

* `walk next p fuel x` moves along the chain while the next address satisfies `p`. On a
  linked chain it ends at the last address of the `p`-prefix (`walk_eq`), provided the fuel
  covers the chain.
* `firstFrom next p fuel x` is the first address after `x` that satisfies `p`.
* `Linked.splice` and `Linked.unsplice` are the two pointer updates of a list: put a new
  address behind `u`, take the address behind `u` out.
-/

namespace Chain

variable {A : Type*}

/-- Following `next` from `x` visits exactly `ys` and ends. -/
def Linked (next : A → Option A) : A → List A → Prop
  | x, [] => next x = none
  | x, y :: ys => next x = some y ∧ Linked next y ys

/-- Following `next` from `x` visits `ys`, without a statement about what comes next. -/
def Path (next : A → Option A) : A → List A → Prop
  | _, [] => True
  | x, y :: ys => next x = some y ∧ Path next y ys

/-- `while (next(x) && p(next(x))) x = next(x)`. -/
def walk (next : A → Option A) (p : A → Bool) : ℕ → A → A
  | 0, x => x
  | fuel + 1, x =>
    match next x with
    | none => x
    | some y => if p y then walk next p fuel y else x

/-- The first address after `x` that satisfies `p`. -/
def firstFrom (next : A → Option A) (p : A → Bool) : ℕ → A → Option A
  | 0, _ => none
  | fuel + 1, x =>
    match next x with
    | none => none
    | some y => if p y then some y else firstFrom next p fuel y

variable {next next' : A → Option A} {x : A} {xs ys : List A}

/-- A chain of nothing ends at once. -/
theorem linked_nil : Linked next x [] ↔ next x = none := Iff.rfl

/-- A chain goes on from its first node. -/
theorem linked_cons {y : A} : Linked next x (y :: ys) ↔ next x = some y ∧ Linked next y ys :=
  Iff.rfl

/-- A chain splits at any of its addresses. -/
theorem linked_append :
    Linked next x (xs ++ ys) ↔ Path next x xs ∧ Linked next (xs.getLastD x) ys := by
  induction xs generalizing x with
  | nil => simp [Path]
  | cons y xs ih => rw [List.cons_append, linked_cons, ih, Path, and_assoc, List.getLastD_cons]

/-- What the address at a split point is linked to. -/
theorem Linked.tail (h : Linked next x (xs ++ ys)) : Linked next (xs.getLastD x) ys :=
  (linked_append.mp h).2

/-- The chain from any of its addresses. -/
theorem Linked.suffix {a : A} (h : Linked next x ys) (ha : a ∈ x :: ys) :
    ∃ zs, Linked next a zs ∧ zs <:+ ys := by
  induction ys generalizing x with
  | nil =>
    obtain rfl := List.mem_singleton.mp ha
    exact ⟨[], h, List.suffix_rfl⟩
  | cons y ys ih =>
    rcases List.mem_cons.mp ha with rfl | ha
    · exact ⟨y :: ys, h, List.suffix_rfl⟩
    · obtain ⟨zs, hzs, hsuffix⟩ := ih h.2 ha
      exact ⟨zs, hzs, hsuffix.trans (List.suffix_cons y ys)⟩

/-- The chain from an address is unique. -/
theorem Linked.unique (h : Linked next x xs) (h' : Linked next x ys) : xs = ys := by
  induction xs generalizing x ys with
  | nil =>
    cases ys with
    | nil => rfl
    | cons y ys => exact absurd (h.symm.trans h'.1) (Option.some_ne_none y).symm
  | cons a xs ih =>
    cases ys with
    | nil => exact absurd (h.1.symm.trans h') (Option.some_ne_none a)
    | cons y ys =>
      obtain rfl := Option.some.inj (h.1.symm.trans h'.1)
      rw [ih h.2 h'.2]

/-- A chain only depends on the pointers of its addresses but the last's successor. -/
theorem Path.congr (h : Path next x xs) (heq : ∀ a ∈ (x :: xs).dropLast, next' a = next a) :
    Path next' x xs := by
  induction xs generalizing x with
  | nil => trivial
  | cons y xs ih =>
    rw [List.dropLast_cons_cons] at heq
    exact ⟨(heq x List.mem_cons_self).trans h.1,
      ih h.2 fun a ha => heq a (List.mem_cons_of_mem x ha)⟩

/-- It stays where its pointers stay. -/
theorem Linked.congr (h : Linked next x xs) (heq : ∀ a ∈ x :: xs, next' a = next a) :
    Linked next' x xs := by
  induction xs generalizing x with
  | nil => exact (heq x List.mem_cons_self).trans h
  | cons y xs ih =>
    exact ⟨(heq x List.mem_cons_self).trans h.1,
      ih h.2 fun a ha => heq a (List.mem_cons_of_mem x ha)⟩

/-- The addresses before a split point do not contain the split point. -/
theorem mem_dropLast_cons {u a : A} (hu : xs.getLastD x = u) (hnd : (x :: xs).Nodup)
    (ha : a ∈ (x :: xs).dropLast) : a ≠ u := by
  have hsplit : (x :: xs).dropLast ++ [u] = x :: xs := by
    have hlast : (x :: xs).getLast (List.cons_ne_nil x xs) = u := by
      rw [← hu, List.getLast_eq_getLastD]
    rw [← hlast, List.dropLast_append_getLast]
  rw [← hsplit, List.nodup_append] at hnd
  exact hnd.2.2 a ha u (List.mem_singleton.mpr rfl)

/-- **Insertion.** `n.next = u.next; u.next = n` puts the new address `n` behind `u`. -/
theorem Linked.splice {n : A} (h : Linked next x (xs ++ ys)) (hnd : (x :: (xs ++ ys)).Nodup)
    (hn : n ∉ x :: (xs ++ ys)) (hnew : next' n = next (xs.getLastD x))
    (hu : next' (xs.getLastD x) = some n)
    (hframe : ∀ a ∈ x :: (xs ++ ys), a ≠ xs.getLastD x → next' a = next a) :
    Linked next' x (xs ++ n :: ys) := by
  obtain ⟨hpath, htail⟩ := linked_append.mp h
  rw [← List.cons_append] at hnd hframe hn
  have hmem : xs.getLastD x ∈ x :: xs := by
    rw [← List.getLast_eq_getLastD (List.cons_ne_nil x xs)]
    exact List.getLast_mem _
  refine linked_append.mpr ⟨hpath.congr fun a ha => ?_, hu, ?_⟩
  · -- the links in front of `u` are not written
    exact hframe a (List.mem_append_left ys (List.dropLast_subset _ ha))
      (mem_dropLast_cons rfl hnd.of_append_left ha)
  · -- the rest hangs off `n` as it hung off `u`
    have hback : ∀ a ∈ ys, next' a = next a := fun a ha => by
      refine hframe a (List.mem_append_right _ ha) fun heq => ?_
      exact List.disjoint_of_nodup_append hnd (heq ▸ hmem) ha
    cases ys with
    | nil => exact hnew.trans htail
    | cons y ys => exact ⟨hnew.trans htail.1, htail.2.congr hback⟩

/-- **Deletion.** `u.next = z.next` takes the address `z` behind `u` out. -/
theorem Linked.unsplice {z : A} (h : Linked next x (xs ++ z :: ys))
    (hnd : (x :: (xs ++ z :: ys)).Nodup) (hu : next' (xs.getLastD x) = next z)
    (hframe : ∀ a ∈ x :: (xs ++ ys), a ≠ xs.getLastD x → next' a = next a) :
    Linked next' x (xs ++ ys) := by
  obtain ⟨hpath, -, htail⟩ := linked_append.mp h
  rw [← List.cons_append] at hnd hframe
  have hmem : xs.getLastD x ∈ x :: xs := by
    rw [← List.getLast_eq_getLastD (List.cons_ne_nil x xs)]
    exact List.getLast_mem _
  refine linked_append.mpr ⟨hpath.congr fun a ha => ?_, ?_⟩
  · exact hframe a (List.mem_append_left ys (List.dropLast_subset _ ha))
      (mem_dropLast_cons rfl hnd.of_append_left ha)
  · -- the rest hangs off `u` as it hung off `z`
    have hback : ∀ a ∈ ys, next' a = next a := fun a ha => by
      refine hframe a (List.mem_append_right _ ha) fun heq => ?_
      exact List.disjoint_of_nodup_append hnd (heq ▸ hmem) (List.mem_cons_of_mem z ha)
    cases ys with
    | nil => exact hu.trans htail
    | cons y ys => exact ⟨hu.trans htail.1, htail.2.congr hback⟩

/-! ### Walking a linked chain -/

/-- The walk ends at the last address of the `p`-prefix. -/
theorem walk_eq (h : Linked next x ys) (p : A → Bool) {fuel : ℕ} (hfuel : ys.length ≤ fuel) :
    walk next p fuel x = (ys.takeWhile p).getLastD x := by
  induction ys generalizing x fuel with
  | nil =>
    cases fuel with
    | zero => rfl
    | succ fuel => rw [walk, linked_nil.mp h]; rfl
  | cons y ys ih =>
    cases fuel with
    | zero => exact absurd hfuel (by simp)
    | succ fuel =>
      rw [walk, h.1]
      by_cases hp : p y = true
      · rw [List.takeWhile_cons_of_pos hp, List.getLastD_cons]
        simp only [hp, if_true]
        exact ih h.2 (by simpa using hfuel)
      · rw [List.takeWhile_cons_of_neg hp]
        simp [hp]

/-- The walk stays on the chain. -/
theorem walk_mem (h : Linked next x ys) (p : A → Bool) (fuel : ℕ) :
    walk next p fuel x ∈ x :: ys := by
  induction fuel generalizing x ys with
  | zero => exact List.mem_cons_self
  | succ fuel ih =>
    rw [walk]
    cases ys with
    | nil =>
      rw [linked_nil.mp h]
      exact List.mem_cons_self
    | cons y ys =>
      rw [h.1]
      by_cases hp : p y = true
      · simp only [hp, if_true]
        exact List.mem_cons_of_mem x (ih h.2)
      · simp [hp]

/-- **The scan of a chain** finds what a search of its list finds, with enough fuel. -/
theorem firstFrom_eq (h : Linked next x ys) (p : A → Bool) {fuel : ℕ}
    (hfuel : ys.length ≤ fuel) : firstFrom next p fuel x = ys.find? p := by
  induction ys generalizing x fuel with
  | nil =>
    cases fuel with
    | zero => rfl
    | succ fuel => rw [firstFrom, linked_nil.mp h]; rfl
  | cons y ys ih =>
    cases fuel with
    | zero => exact absurd hfuel (by simp)
    | succ fuel =>
      rw [firstFrom, h.1]
      by_cases hp : p y = true
      · simp [hp]
      · simp only [hp, Bool.false_eq_true, if_false]
        rw [List.find?_cons_of_neg hp]
        exact ih h.2 (by simpa using hfuel)

end Chain
