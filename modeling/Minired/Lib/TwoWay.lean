import Mathlib.Data.List.Nodup

/-!
# Chains that are linked both ways

A pointer structure is seen as the functions `next` and `prev` from an address to what its two
pointers hold, `none` for null. `Follows f p as` says that following `f` from the pointer `p`
visits exactly `as` and ends at null. A `TwoWay` chain is followed by `next` from its head, and by
`prev` from its tail in the opposite order.

* `TwoWay.swap` — the chain read from the other end, so that what is proved for the head holds
  for the tail;
* `TwoWay.push`, `TwoWay.pop` — what has to be written to put an address in front, and to take
  the first one out;
* `follow` — as many steps along the chain; `Follows.follow_eq` finds where they lead.
-/

namespace TwoWay

variable {A : Type*}

/-- Following `f` from the pointer visits exactly the addresses and ends. -/
def Follows (f : A → Option A) : Option A → List A → Prop
  | p, [] => p = none
  | p, a :: as => p = some a ∧ Follows f (f a) as

/-- The pointer behind `k` steps; null stays null. -/
def follow (f : A → Option A) : ℕ → Option A → Option A
  | 0, p => p
  | k + 1, p => follow f k (p.bind f)

variable {f f' : A → Option A} {p : Option A} {as bs : List A} {a b n : A}

/-- Only the null pointer leads to no node. -/
theorem follows_nil : Follows f p [] ↔ p = none := Iff.rfl

/-- The pointer holds the first address. -/
theorem Follows.pointer_eq (h : Follows f p as) : p = as.head? := by
  cases as with
  | nil => exact h
  | cons a as => exact h.1

/-- Only the pointers of the addresses visited matter. -/
theorem Follows.congr (h : Follows f p as) (hframe : ∀ a ∈ as, f' a = f a) : Follows f' p as := by
  induction as generalizing p with
  | nil => exact h
  | cons a as ih =>
    refine ⟨h.1, ?_⟩
    rw [hframe a List.mem_cons_self]
    exact ih h.2 fun b hb => hframe b (List.mem_cons_of_mem a hb)

/-- The chain from a pointer is unique. -/
theorem Follows.unique (h : Follows f p as) (h' : Follows f p bs) : as = bs := by
  induction as generalizing p bs with
  | nil =>
    have hhead := h'.pointer_eq
    rw [follows_nil.mp h] at hhead
    exact (List.head?_eq_none_iff.mp hhead.symm).symm
  | cons a as ih =>
    cases bs with
    | nil => exact absurd (h.1.symm.trans h') (Option.some_ne_none a)
    | cons b bs =>
      obtain rfl := Option.some.inj (h.1.symm.trans h'.1)
      rw [ih h.2 h'.2]

/-- The last address points nowhere. -/
theorem Follows.last (h : Follows f p (as ++ [a])) : f a = none := by
  induction as generalizing p with
  | nil => exact h.2
  | cons b as ih => exact ih h.2

/-- An address more at the end of the chain. -/
theorem Follows.extend (h : Follows f p (as ++ [a])) (hframe : ∀ b ∈ as, f' b = f b)
    (ha : f' a = some n) (hn : f' n = none) : Follows f' p (as ++ [a] ++ [n]) := by
  induction as generalizing p with
  | nil => exact ⟨h.1, ha, hn⟩
  | cons b as ih =>
    refine ⟨h.1, ?_⟩
    rw [hframe b List.mem_cons_self]
    exact ih h.2 fun c hc => hframe c (List.mem_cons_of_mem b hc)

/-- The chain cut off behind an address. -/
theorem Follows.cut (h : Follows f p (as ++ [a] ++ bs)) (hframe : ∀ b ∈ as, f' b = f b)
    (ha : f' a = none) : Follows f' p (as ++ [a]) := by
  induction as generalizing p with
  | nil => exact ⟨h.1, ha⟩
  | cons b as ih =>
    refine ⟨h.1, ?_⟩
    rw [hframe b List.mem_cons_self]
    exact ih h.2 fun c hc => hframe c (List.mem_cons_of_mem b hc)

/-- **Steps along the chain** lead to the address at their number. -/
theorem Follows.follow_eq (h : Follows f p as) (k : ℕ) : follow f k p = as[k]? := by
  induction k generalizing p as with
  | zero => rw [follow, h.pointer_eq, List.head?_eq_getElem?]
  | succ k ih =>
    cases as with
    | nil =>
      -- null stays null
      have hend : Follows f (p.bind f) [] := by
        rw [follows_nil.mp h]
        rfl
      exact ih hend
    | cons a as =>
      rw [follow, h.1, List.getElem?_cons_succ]
      exact ih h.2

/-- The rest of the chain, from an address on. -/
theorem Follows.drop (h : Follows f p as) (k : ℕ) : Follows f as[k]? (as.drop k) := by
  induction k generalizing p as with
  | zero =>
    rw [List.drop_zero, ← List.head?_eq_getElem?, ← h.pointer_eq]
    exact h
  | succ k ih =>
    cases as with
    | nil => rfl
    | cons a as => exact ih h.2

/-- A chain linked both ways, from its head and from its tail. -/
structure Chain (next prev : A → Option A) (head tail : Option A) (as : List A) : Prop where
  forth : Follows next head as
  back : Follows prev tail as.reverse
  nodup : as.Nodup

variable {next prev next' prev' : A → Option A} {head tail : Option A}

namespace Chain

/-- The chain read from the other end. -/
theorem swap (h : Chain next prev head tail as) : Chain prev next tail head as.reverse where
  forth := h.back
  back := by
    rw [List.reverse_reverse]
    exact h.forth
  nodup := List.nodup_reverse.mpr h.nodup

/-- No head, no chain. -/
theorem head_eq_none (h : Chain next prev head tail as) : head = none ↔ as = [] := by
  rw [h.forth.pointer_eq, List.head?_eq_none_iff]

/-- Only the empty chain has no last node. -/
theorem tail_eq_none (h : Chain next prev head tail as) : tail = none ↔ as = [] := by
  rw [h.swap.head_eq_none, List.reverse_eq_nil_iff]

/-- The pointer that leads out of the chain at its head is null. -/
theorem outer (h : Chain next prev head tail as) (ha : head = some a) : prev a = none := by
  cases as with
  | nil => exact absurd (h.forth.symm.trans ha) (Option.some_ne_none a).symm
  | cons b as =>
    obtain rfl := Option.some.inj (h.forth.1.symm.trans ha)
    have hback := h.back
    rw [List.reverse_cons] at hback
    exact hback.last

/-- **An address in front.** It points to the old head, and the old head back to it. In an empty
chain it becomes the tail too. -/
theorem push (h : Chain next prev head tail as) (hn : n ∉ as) (hnext : next' n = head)
    (hprev : prev' n = none) (hlink : ∀ a, head = some a → prev' a = some n)
    (hforth : ∀ a ∈ as, next' a = next a)
    (hback : ∀ a ∈ as, head ≠ some a → prev' a = prev a) :
    Chain next' prev' (some n) (if head = none then some n else tail) (n :: as) := by
  refine ⟨⟨rfl, ?_⟩, ?_, List.nodup_cons.mpr ⟨hn, h.nodup⟩⟩
  · rw [hnext]
    exact h.forth.congr hforth
  · cases as with
    | nil =>
      rw [if_pos (h.head_eq_none.mpr rfl)]
      exact ⟨rfl, hprev⟩
    | cons a as =>
      have hhead : head = some a := h.forth.1
      have hchain := h.back
      rw [List.reverse_cons] at hchain ⊢
      rw [List.reverse_cons, if_neg (hhead ▸ Option.some_ne_none a)]
      -- behind the old head, which comes last from the tail on
      refine hchain.extend (fun b hb => ?_) (hlink a hhead) hprev
      have hmem : b ∈ as := List.mem_reverse.mp hb
      refine hback b (List.mem_cons_of_mem a hmem) fun heq => ?_
      rw [hhead] at heq
      exact (List.nodup_cons.mp h.nodup).1 (Option.some.inj heq ▸ hmem)

/-- **The first address out.** The next one becomes the head and points back to null. When there
is none, the tail goes too. -/
theorem pop (h : Chain next prev head tail (a :: as))
    (hforth : ∀ b ∈ as, next' b = next b) (hlink : ∀ b, next a = some b → prev' b = none)
    (hback : ∀ b ∈ as, next a ≠ some b → prev' b = prev b) :
    Chain next' prev' (next a) (if next a = none then none else tail) as := by
  have hnext : Follows next (next a) as := h.forth.2
  refine ⟨hnext.congr hforth, ?_, (List.nodup_cons.mp h.nodup).2⟩
  cases as with
  | nil =>
    rw [if_pos (follows_nil.mp hnext)]
    rfl
  | cons b as =>
    have hhead : next a = some b := hnext.1
    have hchain := h.back
    rw [List.reverse_cons, List.reverse_cons] at hchain
    rw [List.reverse_cons, if_neg (hhead ▸ Option.some_ne_none b)]
    refine hchain.cut (fun c hc => ?_) (hlink b hhead)
    have hmem : c ∈ as := List.mem_reverse.mp hc
    refine hback c (List.mem_cons_of_mem b hmem) fun heq => ?_
    rw [hhead] at heq
    have hnodup := (List.nodup_cons.mp h.nodup).2
    exact (List.nodup_cons.mp hnodup).1 (Option.some.inj heq ▸ hmem)

end Chain

end TwoWay
