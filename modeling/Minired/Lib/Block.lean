import Mathlib.Data.List.Basic

/-!
# Blocks of memory

A block is what an allocator hands out: a number of cells in which nothing has been written yet.
`store` writes a run of cells and `load` reads one. Both refuse to leave the block, and `load`
refuses to read a cell that was never written, so that a program whose stores and loads all
succeed is one that stays inside its blocks.

`Has b i xs` says that the cells from `i` on hold `xs`. A store brings it about (`has_store`),
stores elsewhere keep it (`Has.store`), and so does a change of the size of the block that leaves
the cells in it (`Has.resize`).
-/

/-- A block of memory; a cell that has not been written is `none`. -/
abbrev Block (α : Type) := List (Option α)

namespace Block

variable {α : Type} {b b' : Block α} {i j size : ℕ} {xs ys : List α}

/-- A new block. -/
def alloc (α : Type) (size : ℕ) : Block α := List.replicate size none

/-- Writes a run of cells. -/
def store (b : Block α) (i : ℕ) (xs : List α) : Option (Block α) :=
  if i + xs.length ≤ b.length then
    some (b.mapIdx fun k cell => if i ≤ k ∧ k < i + xs.length then xs[k - i]? else cell)
  else none

/-- Reads a run of cells. -/
def load (b : Block α) (i n : ℕ) : Option (List α) :=
  if i + n ≤ b.length then ((b.drop i).take n).mapM id else none

/-- The block with another size: cells are cut off, or new ones are put behind. -/
def resize (b : Block α) (size : ℕ) : Block α :=
  b.take size ++ List.replicate (size - b.length) none

/-- The cells from `i` on hold the list. -/
def Has (b : Block α) (i : ℕ) (xs : List α) : Prop :=
  ∀ j, j < xs.length → b[i + j]? = some xs[j]?

@[simp] theorem length_alloc (size : ℕ) : (alloc α size).length = size := List.length_replicate

@[simp] theorem length_resize (b : Block α) (size : ℕ) : (b.resize size).length = size := by
  rw [resize, List.length_append, List.length_take, List.length_replicate]
  omega

/-- A store succeeds exactly when it stays in the block. -/
theorem isSome_store : (b.store i xs).isSome ↔ i + xs.length ≤ b.length := by
  unfold store
  split <;> simp [*]

/-- A store keeps the size. -/
theorem length_store (h : b.store i xs = some b') : b'.length = b.length := by
  unfold store at h
  split at h
  · cases h
    exact List.length_mapIdx
  · cases h

/-- What a cell holds after a store. -/
theorem getElem?_store (h : b.store i xs = some b') (k : ℕ) :
    b'[k]? = if i ≤ k ∧ k < i + xs.length then some xs[k - i]? else b[k]? := by
  unfold store at h
  split at h
  case isFalse => cases h
  case isTrue hfit =>
    cases h
    rw [List.getElem?_mapIdx]
    by_cases hk : i ≤ k ∧ k < i + xs.length
    · have hcell : k < b.length := by omega
      rw [if_pos hk, List.getElem?_eq_getElem hcell, Option.map_some, if_pos hk]
    · rw [if_neg hk]
      simp only [if_neg hk, Option.map_id']

/-- What is stored is there. -/
theorem has_store (h : b.store i xs = some b') : b'.Has i xs := by
  intro j hj
  rw [getElem?_store h, if_pos ⟨by omega, by omega⟩, Nat.add_sub_cancel_left]

/-- The empty run is anywhere. -/
theorem has_nil (b : Block α) (i : ℕ) : b.Has i [] := fun _ hj => absurd hj (Nat.not_lt_zero _)

/-- A store elsewhere keeps what is there. -/
theorem Has.store (hb : b.Has j ys) (h : b.store i xs = some b')
    (hapart : j + ys.length ≤ i ∨ i + xs.length ≤ j) : b'.Has j ys := by
  intro k hk
  rw [getElem?_store h, if_neg (by omega)]
  exact hb k hk

/-- Cells that stay in the block keep what is there. -/
theorem Has.resize (hb : b.Has i xs) (hsize : i + xs.length ≤ size) : (b.resize size).Has i xs := by
  intro k hk
  have hcell := hb k hk
  have hlt : i + k < b.length := by
    by_contra hge
    rw [List.getElem?_eq_none (by omega)] at hcell
    cases hcell
  rw [Block.resize, List.getElem?_append_left (by rw [List.length_take]; omega),
    List.getElem?_take_of_lt (by omega)]
  exact hcell

/-- Two runs, one behind the other. -/
theorem Has.append (hx : b.Has i xs) (hy : b.Has (i + xs.length) ys) : b.Has i (xs ++ ys) := by
  intro k hk
  rw [List.length_append] at hk
  rcases Nat.lt_or_ge k xs.length with hlt | hge
  · rw [List.getElem?_append_left hlt]
    exact hx k hlt
  · rw [List.getElem?_append_right hge, ← hy (k - xs.length) (by omega)]
    congr 1
    omega

/-- A run that is there is read. -/
theorem Has.load (hb : b.Has i xs) (hfit : i + xs.length ≤ b.length) :
    b.load i xs.length = some xs := by
  have hrun : (b.drop i).take xs.length = xs.map some := by
    refine List.ext_getElem? fun k => ?_
    rcases Nat.lt_or_ge k xs.length with hlt | hge
    · rw [List.getElem?_take_of_lt hlt, List.getElem?_drop, hb k hlt, List.getElem?_map,
        List.getElem?_eq_getElem hlt]
      rfl
    · rw [List.getElem?_eq_none, List.getElem?_eq_none]
      · rwa [List.length_map]
      · rw [List.length_take]
        omega
  rw [Block.load, if_pos hfit, hrun, List.mapM_map]
  exact (List.mapM_pure (m := Option) (f := id)).trans (congrArg some (List.map_id xs))

end Block
