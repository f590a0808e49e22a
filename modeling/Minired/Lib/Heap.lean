import Mathlib.Data.List.Forall2
import Mathlib.Data.List.GetD
import Mathlib.Data.List.Nodup
import Mathlib.Data.List.Perm.Basic

/-!
# A heap of cells, and linked structures in it

`Heap C` is a memory that hands out cells. An address is used once: `alloc` takes the next one
that was never used, `store` and `free` have no result at an address that is not allocated, so a
program with a result has followed no dangling pointer and freed nothing twice.

* `Heap.Owns h as` says that `as` lists the allocated addresses, each once. A program that starts
  with `Owns h as` and ends with `Owns h' []` has freed everything.
* `Shape` describes the nodes of a linked structure: where a node is, which cells it owns, and what
  they hold when its successor is `p`. `Shape.Seg` is the segment between two pointers and
  `Shape.Chains` an array of lists that end in null, such as the buckets of a hash table.
* A change of the heap outside the cells of a segment leaves it alone (`Seg.frame`), and a change
  inside one list of an array leaves the other lists alone (`Chains.update`).
-/

/-- A memory, and the next address it hands out. -/
structure Heap (C : Type*) where
  cell : ℕ → Option C
  brk : ℕ

namespace Heap

variable {C : Type*} {h h' : Heap C} {a b : ℕ} {c : C} {as bs : List ℕ}

/-- The heap in which nothing is allocated. -/
def empty : Heap C := ⟨fun _ => none, 0⟩

/-- The heap with a new cell, and the address of it. -/
def alloc (h : Heap C) (c : C) : Heap C × ℕ :=
  (⟨Function.update h.cell h.brk (some c), h.brk + 1⟩, h.brk)

/-- The heap with another value in a cell. -/
def put (h : Heap C) (a : ℕ) (c : C) : Heap C := ⟨Function.update h.cell a (some c), h.brk⟩

/-- The heap without a cell. -/
def drop (h : Heap C) (a : ℕ) : Heap C := ⟨Function.update h.cell a none, h.brk⟩

/-- A write to an allocated cell. -/
def store (h : Heap C) (a : ℕ) (c : C) : Option (Heap C) := (h.cell a).map fun _ => h.put a c

/-- An allocated cell is given back. -/
def free (h : Heap C) (a : ℕ) : Option (Heap C) := (h.cell a).map fun _ => h.drop a

/-- A live cell can be written. -/
theorem store_eq {c' : C} (ha : h.cell a = some c') : h.store a c = some (h.put a c) := by
  rw [store, ha, Option.map_some]

/-- A live cell can be freed. -/
theorem free_eq (ha : h.cell a = some c) : h.free a = some (h.drop a) := by
  rw [free, ha, Option.map_some]

/-- What was written is read. -/
@[simp] theorem cell_put_self : (h.put a c).cell a = some c := Function.update_self ..

/-- Other cells are as they were. -/
@[simp] theorem cell_put_of_ne (hb : b ≠ a) : (h.put a c).cell b = h.cell b :=
  Function.update_of_ne hb ..

/-- A cell that is freed is no other one. -/
@[simp] theorem cell_drop_of_ne (hb : b ≠ a) : (h.drop a).cell b = h.cell b :=
  Function.update_of_ne hb ..

/-- A new cell has its content. -/
@[simp] theorem cell_alloc_self : (h.alloc c).1.cell h.brk = some c := Function.update_self ..

/-- Other cells are as they were before it. -/
@[simp] theorem cell_alloc_of_ne (hb : b ≠ h.brk) : (h.alloc c).1.cell b = h.cell b :=
  Function.update_of_ne hb ..

/-- The addresses are the allocated ones, each once. -/
structure Owns (h : Heap C) (as : List ℕ) : Prop where
  nodup : as.Nodup
  mem_iff : ∀ a, a ∈ as ↔ (h.cell a).isSome
  lt_brk : ∀ a ∈ as, a < h.brk

/-- The empty heap is owned by nobody. -/
theorem owns_empty : (empty : Heap C).Owns [] where
  nodup := List.nodup_nil
  mem_iff a := by simp [empty]
  lt_brk a ha := absurd ha List.not_mem_nil

/-- A heap of which nothing is owned is empty. -/
theorem Owns.cell_eq_none (hown : h.Owns []) (a : ℕ) : h.cell a = none := by
  rw [← Option.not_isSome_iff_eq_none, ← hown.mem_iff]
  exact List.not_mem_nil

namespace Owns

/-- The order in which cells are owned does not matter. -/
theorem perm (hown : h.Owns as) (hp : as.Perm bs) : h.Owns bs where
  nodup := hp.nodup_iff.mp hown.nodup
  mem_iff a := hp.mem_iff.symm.trans (hown.mem_iff a)
  lt_brk a ha := hown.lt_brk a (hp.mem_iff.mpr ha)

/-- The next address is not among the owned ones. -/
theorem brk_notMem (hown : h.Owns as) : h.brk ∉ as :=
  fun hmem => Nat.lt_irrefl _ (hown.lt_brk _ hmem)

/-- The caller owns what it allocates. -/
theorem alloc (hown : h.Owns as) (c : C) : (h.alloc c).1.Owns (h.brk :: as) where
  nodup := List.nodup_cons.mpr ⟨hown.brk_notMem, hown.nodup⟩
  mem_iff a := by
    by_cases ha : a = h.brk
    · subst ha
      simp
    · rw [cell_alloc_of_ne ha, List.mem_cons, ← hown.mem_iff]
      simp [ha]
  lt_brk a ha := by
    rcases List.mem_cons.mp ha with rfl | hmem
    · exact Nat.lt_succ_self _
    · exact Nat.lt_succ_of_lt (hown.lt_brk a hmem)

/-- Writing a cell does not change who owns it. -/
theorem put (hown : h.Owns as) (ha : a ∈ as) (c : C) : (h.put a c).Owns as where
  nodup := hown.nodup
  mem_iff b := by
    by_cases hb : b = a
    · subst hb
      simp [ha]
    · rw [cell_put_of_ne hb, hown.mem_iff]
  lt_brk := hown.lt_brk

/-- A cell that is freed is owned no more. -/
theorem drop (hown : h.Owns (a :: as)) : (h.drop a).Owns as where
  nodup := (List.nodup_cons.mp hown.nodup).2
  mem_iff b := by
    by_cases hb : b = a
    · subst hb
      simp [(List.nodup_cons.mp hown.nodup).1, Heap.drop]
    · rw [cell_drop_of_ne hb, ← hown.mem_iff, List.mem_cons]
      simp [hb]
  lt_brk b hb := hown.lt_brk b (List.mem_cons_of_mem a hb)

end Owns

end Heap

/-- How the nodes of a linked structure lie in a heap of cells `C`: the address of a node, the cells
that it owns, and what these hold when the node is followed by a pointer. -/
structure Shape (C S : Type*) where
  addr : S → ℕ
  cells : S → List ℕ
  Holds : (ℕ → Option C) → S → Option ℕ → Prop
  /-- What a node holds is in its own cells. -/
  frame : ∀ {m m' : ℕ → Option C} {s : S} {p : Option ℕ}, Holds m s p →
    (∀ a ∈ cells s, m' a = m a) → Holds m' s p

namespace Shape

variable {C S : Type*} (sh : Shape C S) {m m' : ℕ → Option C} {p q r : Option ℕ} {s : S}
  {ss ts : List S}

/-- The cells that the nodes own. -/
def owned (ss : List S) : List ℕ := ss.flatMap sh.cells

/-- The nodes are linked from the pointer `p` on, and the last one is followed by `q`. -/
inductive Seg (m : ℕ → Option C) : Option ℕ → List S → Option ℕ → Prop
  | nil (p : Option ℕ) : Seg m p [] p
  | cons {s : S} {ss : List S} {p q : Option ℕ} (hs : sh.Holds m s p) (hss : Seg m p ss q) :
      Seg m (some (sh.addr s)) (s :: ss) q

variable {sh}

/-- An array after a change of one list: that list, and the others. -/
theorem flatten_modify_perm (f : List S → List S) {chains : List (List S)} {i : ℕ}
    (hi : i < chains.length) :
    (chains.modify i f).flatten.Perm (f (chains.getD i []) ++ (chains.eraseIdx i).flatten) := by
  induction chains generalizing i with
  | nil => exact absurd hi (Nat.not_lt_zero i)
  | cons us chains ih =>
    cases i with
    | zero => exact List.Perm.refl _
    | succ i =>
      rw [List.modify_succ_cons, List.flatten_cons, List.eraseIdx_cons_succ, List.flatten_cons,
        List.getD_cons_succ]
      refine ((ih (Nat.lt_of_succ_lt_succ hi)).append_left us).trans ?_
      rw [← List.append_assoc, ← List.append_assoc]
      exact List.perm_append_comm.append_right _

/-- One list of an array, and the others. -/
theorem flatten_perm_getD {chains : List (List S)} {i : ℕ} (hi : i < chains.length) :
    chains.flatten.Perm (chains.getD i [] ++ (chains.eraseIdx i).flatten) := by
  have hid := flatten_modify_perm id hi
  rwa [List.modify_id] at hid

/-- Nothing owns nothing. -/
@[simp] theorem owned_nil : sh.owned [] = [] := rfl

/-- The cells of the first and those of the others. -/
@[simp] theorem owned_cons : sh.owned (s :: ss) = sh.cells s ++ sh.owned ss :=
  List.flatMap_cons

/-- The cells of both. -/
@[simp] theorem owned_append : sh.owned (ss ++ ts) = sh.owned ss ++ sh.owned ts :=
  List.flatMap_append

/-- In another order the cells are the same. -/
theorem owned_perm (hp : ss.Perm ts) : (sh.owned ss).Perm (sh.owned ts) := hp.flatMap_right _

namespace Seg

/-- An empty segment ends where it begins. -/
theorem nil_iff : sh.Seg m p [] q ↔ p = q :=
  ⟨fun h => by cases h; rfl, fun h => h ▸ .nil p⟩

/-- A segment begins with a pointer to its first cell. -/
theorem cons_iff :
    sh.Seg m p (s :: ss) q ↔ p = some (sh.addr s) ∧ ∃ r, sh.Holds m s r ∧ sh.Seg m r ss q :=
  ⟨fun h => by cases h with | cons hs hss => exact ⟨rfl, _, hs, hss⟩,
    fun ⟨hp, _, hs, hss⟩ => hp ▸ .cons hs hss⟩

/-- A segment can be cut at any node. -/
theorem append_iff :
    sh.Seg m p (ss ++ ts) q ↔ ∃ r, sh.Seg m p ss r ∧ sh.Seg m r ts q := by
  induction ss generalizing p with
  | nil => simp [nil_iff]
  | cons s ss ih =>
    simp only [List.cons_append, cons_iff, ih]
    constructor
    · rintro ⟨hp, u, hs, r, hss, hts⟩
      exact ⟨r, ⟨hp, u, hs, hss⟩, hts⟩
    · rintro ⟨r, ⟨hp, u, hs, hss⟩, hts⟩
      exact ⟨hp, u, hs, r, hss, hts⟩

/-- **The frame rule.** A segment depends on the cells of its nodes alone. -/
theorem frame (h : sh.Seg m p ss q) (heq : ∀ a ∈ sh.owned ss, m' a = m a) :
    sh.Seg m' p ss q := by
  induction h with
  | nil p => exact .nil p
  | cons hs _ ih =>
    rw [owned_cons] at heq
    exact .cons (sh.frame hs fun a ha => heq a (List.mem_append_left _ ha))
      (ih fun a ha => heq a (List.mem_append_right _ ha))

end Seg

variable (sh) in
/-- Each pointer of the array starts a list that ends in null. -/
def Chains (m : ℕ → Option C) (heads : List (Option ℕ)) (chains : List (List S)) : Prop :=
  List.Forall₂ (fun p ss => sh.Seg m p ss none) heads chains

namespace Chains

variable {heads : List (Option ℕ)} {chains : List (List S)}

/-- Chains stay where their cells stay. -/
theorem frame (h : sh.Chains m heads chains)
    (heq : ∀ a ∈ sh.owned chains.flatten, m' a = m a) : sh.Chains m' heads chains := by
  induction h with
  | nil => exact .nil
  | cons hs _ ih =>
    rw [List.flatten_cons, owned_append] at heq
    exact .cons (hs.frame fun a ha => heq a (List.mem_append_left _ ha))
      (ih fun a ha => heq a (List.mem_append_right _ ha))

/-- The list at an index of the array. -/
theorem seg (h : sh.Chains m heads chains) {i : ℕ} (hi : heads[i]? = some p) :
    sh.Seg m p (chains.getD i []) none := by
  induction h generalizing i with
  | nil => simp at hi
  | cons hs _ ih =>
    cases i with
    | zero =>
      obtain rfl := Option.some.inj hi
      exact hs
    | succ i => exact ih hi

/-- There is one head for each chain. -/
theorem length_eq (h : sh.Chains m heads chains) : heads.length = chains.length :=
  List.Forall₂.length_eq h

/-- The next list of an array that is walked from an index on. -/
theorem of_cons {i : ℕ} (h : sh.Chains m (heads.drop i) (ss :: chains)) :
    ∃ p, heads[i]? = some p ∧ sh.Seg m p ss none ∧ sh.Chains m (heads.drop (i + 1)) chains := by
  obtain ⟨p, tail, hp, htail, hdrop⟩ := List.forall₂_cons_right_iff.mp h
  refine ⟨p, by rw [← List.head?_drop, hdrop, List.head?_cons], hp, ?_⟩
  rwa [← List.tail_drop, hdrop, List.tail_cons]

/-- The array of empty lists. -/
theorem replicate (m : ℕ → Option C) (n : ℕ) :
    sh.Chains m (List.replicate n none) (List.replicate n []) := by
  induction n with
  | zero => exact .nil
  | succ n ih => exact .cons (.nil none) ih

/-- **A change in one list.** A change of the heap outside the other lists, which links a new list
at an index, gives the array with that list. -/
theorem update (h : sh.Chains m heads chains) {i : ℕ}
    (hkeep : ∀ a ∈ sh.owned (chains.eraseIdx i).flatten, m' a = m a)
    (hnew : sh.Seg m' p ts none) :
    sh.Chains m' (heads.set i p) (chains.modify i fun _ => ts) := by
  induction h generalizing i with
  | nil =>
    rw [List.set_nil, List.modify_nil]
    exact .nil
  | cons hs hrest ih =>
    cases i with
    | zero => exact .cons hnew (Chains.frame hrest hkeep)
    | succ i =>
      rw [List.eraseIdx_cons_succ, List.flatten_cons, owned_append] at hkeep
      exact .cons (hs.frame fun a ha => hkeep a (List.mem_append_left _ ha))
        (ih fun a ha => hkeep a (List.mem_append_right _ ha))

/-- A change in one list behind the same pointer. -/
theorem replace (h : sh.Chains m heads chains) {i : ℕ} (hi : heads[i]? = some p)
    (hkeep : ∀ a ∈ sh.owned (chains.eraseIdx i).flatten, m' a = m a)
    (hnew : sh.Seg m' p ts none) : sh.Chains m' heads (chains.modify i fun _ => ts) := by
  have hset : heads.set i p = heads := by
    obtain ⟨hlt, rfl⟩ := List.getElem?_eq_some_iff.mp hi
    exact List.set_getElem_self hlt
  exact hset ▸ h.update hkeep hnew

end Chains

end Shape
