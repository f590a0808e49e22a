import Mathlib

/-!
# Layouts

A format puts its data between numbers and marks that say where it is. `Piece` is one part of a
file, framing or data, and a file is made of a list of pieces. `mask` tells for every place of the
file whether it belongs to data.

`Like` relates two layouts with the same framing and with data of the same lengths. A change of
the data alone leads from a layout to one that is like it (`exists_like`), so whoever finds
his way by the framing goes the same way through both files.
-/

namespace Layout

variable {α : Type}

/-- A part of a file. -/
inductive Piece (α : Type)
  | frame (xs : List α)
  | data (xs : List α)

namespace Piece

/-- What stands in the file. -/
def content : Piece α → List α
  | frame xs => xs
  | data xs => xs

/-- Whether the piece is data. -/
def isData : Piece α → Bool
  | frame _ => false
  | data _ => true

/-- The same framing, or data of the same length. -/
inductive Like : Piece α → Piece α → Prop
  | frame (xs : List α) : Like (frame xs) (frame xs)
  | data {xs ys : List α} (h : ys.length = xs.length) : Like (data xs) (data ys)

end Piece

/-- The file. -/
def contents (ps : List (Piece α)) : List α := ps.flatMap Piece.content

/-- Which of its places belong to data. -/
def mask (ps : List (Piece α)) : List Bool :=
  ps.flatMap fun p => List.replicate p.content.length p.isData

/-- The same framing throughout. -/
abbrev Like : List (Piece α) → List (Piece α) → Prop := List.Forall₂ Piece.Like

/-- The content of the first piece comes first. -/
@[simp] theorem contents_cons (p : Piece α) (ps : List (Piece α)) :
    contents (p :: ps) = p.content ++ contents ps := rfl

/-- The contents of two layouts. -/
@[simp] theorem contents_append (ps qs : List (Piece α)) :
    contents (ps ++ qs) = contents ps ++ contents qs := List.flatMap_append

/-- The mask of the first piece comes first. -/
theorem mask_cons (p : Piece α) (ps : List (Piece α)) :
    mask (p :: ps) = List.replicate p.content.length p.isData ++ mask ps := rfl

/-- Pieces of one shape are equally long. -/
theorem Piece.Like.length_eq {p q : Piece α} (h : p.Like q) :
    q.content.length = p.content.length := by
  cases h with
  | frame xs => rfl
  | data h => exact h

/-- So are layouts of one shape. -/
theorem Like.length_eq {ps qs : List (Piece α)} (h : Like ps qs) :
    (contents qs).length = (contents ps).length := by
  induction h with
  | nil => rfl
  | cons hp _ ih => rw [contents_cons, contents_cons, List.length_append, List.length_append, ih,
      hp.length_eq]

/-! ### Layouts that are alike -/

/-- A frame is the same in both. -/
theorem Like.of_frame {xs : List α} {ps qs : List (Piece α)} (h : Like (.frame xs :: ps) qs) :
    ∃ qs', qs = .frame xs :: qs' ∧ Like ps qs' := by
  cases h with
  | cons hp hps =>
    cases hp with
    | frame => exact ⟨_, rfl, hps⟩

/-- Data may differ, and is equally long. -/
theorem Like.of_data {xs : List α} {ps qs : List (Piece α)} (h : Like (.data xs :: ps) qs) :
    ∃ ys qs', ys.length = xs.length ∧ qs = .data ys :: qs' ∧ Like ps qs' := by
  cases h with
  | cons hp hps =>
    cases hp with
    | data hlen => exact ⟨_, _, hlen, rfl, hps⟩

/-- A layout is cut where the other one is. -/
theorem Like.of_append {ps ps' qs : List (Piece α)} (h : Like (ps ++ ps') qs) :
    ∃ q q', qs = q ++ q' ∧ Like ps q ∧ Like ps' q' := by
  induction ps generalizing qs with
  | nil => exact ⟨[], qs, rfl, .nil, h⟩
  | cons p ps ih =>
    cases h with
    | cons hp h =>
      obtain ⟨q, q', rfl, hq, hq'⟩ := ih h
      exact ⟨_ :: q, q', rfl, .cons hp hq, hq'⟩

/-- A layout like that of a list of items is that of a list of items, when this holds of each
item. -/
theorem Like.of_flatMap {β : Type} {f : β → List (Piece α)} {P : β → Prop} {bs : List β}
    (hbs : ∀ b ∈ bs, P b) (hitem : ∀ b qs, P b → Like (f b) qs → ∃ b', P b' ∧ qs = f b')
    {qs : List (Piece α)} (h : Like (bs.flatMap f) qs) :
    ∃ bs' : List β, bs'.length = bs.length ∧ (∀ b ∈ bs', P b) ∧ qs = bs'.flatMap f := by
  induction bs generalizing qs with
  | nil =>
    cases h
    exact ⟨[], rfl, fun b hb => absurd hb List.not_mem_nil, rfl⟩
  | cons b bs ih =>
    obtain ⟨q, q', rfl, hq, hq'⟩ := Like.of_append h
    obtain ⟨b', hb', rfl⟩ := hitem b q (hbs b List.mem_cons_self) hq
    obtain ⟨bs', hlen, hbs', rfl⟩ := ih (fun b hb => hbs b (List.mem_cons_of_mem _ hb)) hq'
    exact ⟨b' :: bs', congrArg Nat.succ hlen, List.forall_mem_cons.mpr ⟨hb', hbs'⟩, rfl⟩

/-- **A change of data** does not touch the framing. -/
theorem exists_like {ps : List (Piece α)} {back ys : List α}
    (hlen : ys.length = (contents ps ++ back).length)
    (hget : ∀ j : ℕ, (mask ps)[j]? ≠ some true → ys[j]? = (contents ps ++ back)[j]?) :
    ∃ qs, Like ps qs ∧ ys = contents qs ++ back := by
  induction ps generalizing ys with
  | nil => exact ⟨[], .nil, List.ext_getElem? fun j => hget j (by simp [mask])⟩
  | cons p ps ih =>
    obtain ⟨n, hn⟩ : ∃ n, n = p.content.length := ⟨_, rfl⟩
    rw [contents_cons, List.append_assoc] at hlen hget
    rw [mask_cons, ← hn] at hget
    have hle : n ≤ ys.length := by
      rw [hlen, List.length_append]
      omega
    -- behind the first piece the same is known of the other pieces
    obtain ⟨qs, hlike, hys⟩ : ∃ qs, Like ps qs ∧ ys.drop n = contents qs ++ back := by
      refine ih ?_ fun j hj => ?_
      · rw [List.length_drop, hlen, List.length_append, ← hn, Nat.add_sub_cancel_left]
      · have hj' : (List.replicate n p.isData ++ mask ps)[n + j]? ≠ some true := by
          rwa [List.getElem?_append_right (by simp), List.length_replicate,
            Nat.add_sub_cancel_left]
        rw [List.getElem?_drop, hget (n + j) hj', List.getElem?_append_right (by omega), ← hn,
          Nat.add_sub_cancel_left]
    have htake : (ys.take n).length = n := List.length_take_of_le hle
    have hsplit : ys = ys.take n ++ (contents qs ++ back) := by
      rw [← hys, List.take_append_drop]
    cases p with
    | data xs =>
      refine ⟨.data (ys.take n) :: qs, .cons (.data (htake.trans hn)) hlike, ?_⟩
      rw [contents_cons, List.append_assoc]
      exact hsplit
    | frame xs =>
      -- the places of framing agree
      have hsame : ys.take n = xs := by
        refine List.ext_getElem? fun j => ?_
        rw [List.getElem?_take]
        split_ifs with hj
        · rw [hget j, List.getElem?_append_left (hn ▸ hj)]
          · rfl
          · rw [List.getElem?_append_left (by rwa [List.length_replicate])]
            simp [Piece.isData, hj]
        · exact (List.getElem?_eq_none (by rw [← show n = xs.length from hn]; omega)).symm
      refine ⟨.frame xs :: qs, .cons (.frame xs) hlike, ?_⟩
      rw [contents_cons, List.append_assoc]
      exact hsplit.trans (by rw [hsame]; rfl)

end Layout
