import Mathlib.Data.List.Infix
import Mathlib.Data.List.Forall2

/-!
# Glob patterns

A pattern is a sequence of pieces: a star, which stands for any word, a wildcard, which stands for
any one letter, and a letter, which stands for itself. A word matches when it can be split into
one part a piece such that each piece accepts its part.

* `Matches` — the splitting, as it is said above;
* `matches_append` — a pattern in two parts splits the word in two;
* `matches_star_cons`, `matches_cons_cons` — what the first piece takes, for the matchers that go
  through the pattern from the front;
* `matches_nil_iff` — only stars match the empty word.
-/

namespace Glob

variable {α : Type*}

/-- A piece of a pattern. -/
inductive Piece (α : Type*)
  | star
  | any
  | lit (a : α)

/-- The parts that a piece stands for. -/
def Piece.Accepts : Piece α → List α → Prop
  | .star, _ => True
  | .any, u => u.length = 1
  | .lit a, u => u = [a]

/-- The letters that a piece stands for, as a part of its own. -/
theorem Piece.accepts_singleton (a b : α) : (Piece.lit a).Accepts [b] ↔ a = b :=
  List.singleton_inj.trans eq_comm

/-- **The word can be split so that each piece accepts its part.** -/
def Matches (p : List (Piece α)) (s : List α) : Prop :=
  ∃ parts : List (List α), List.Forall₂ Piece.Accepts p parts ∧ parts.flatten = s

/-- The empty pattern matches the empty text only. -/
theorem matches_nil {s : List α} : Matches [] s ↔ s = [] := by
  constructor
  · rintro ⟨parts, hparts, rfl⟩
    rw [List.forall₂_nil_left_iff.mp hparts, List.flatten_nil]
  · rintro rfl
    exact ⟨[], .nil, rfl⟩

/-- The first piece takes a part in front. -/
theorem matches_cons {c : Piece α} {p : List (Piece α)} {s : List α} :
    Matches (c :: p) s ↔ ∃ u v, s = u ++ v ∧ c.Accepts u ∧ Matches p v := by
  constructor
  · rintro ⟨parts, hparts, rfl⟩
    obtain ⟨u, us, hu, hus, rfl⟩ := List.forall₂_cons_left_iff.mp hparts
    exact ⟨u, us.flatten, List.flatten_cons, hu, us, hus, rfl⟩
  · rintro ⟨u, v, rfl, hu, parts, hparts, rfl⟩
    exact ⟨u :: parts, .cons hu hparts, List.flatten_cons⟩

/-- A pattern in two parts splits the word in two. -/
theorem matches_append {p q : List (Piece α)} {s : List α} :
    Matches (p ++ q) s ↔ ∃ u v, s = u ++ v ∧ Matches p u ∧ Matches q v := by
  induction p generalizing s with
  | nil =>
    constructor
    · intro h
      exact ⟨[], s, rfl, matches_nil.mpr rfl, h⟩
    · rintro ⟨u, v, rfl, hu, hv⟩
      rwa [matches_nil.mp hu, List.nil_append]
  | cons c p ih =>
    constructor
    · intro h
      obtain ⟨u, v, rfl, hu, hv⟩ := matches_cons.mp h
      obtain ⟨v₁, v₂, rfl, hv₁, hv₂⟩ := ih.mp hv
      exact ⟨u ++ v₁, v₂, (List.append_assoc ..).symm, matches_cons.mpr ⟨u, v₁, rfl, hu, hv₁⟩, hv₂⟩
    · rintro ⟨u, v, rfl, hu, hv⟩
      obtain ⟨u₁, u₂, rfl, hu₁, hu₂⟩ := matches_cons.mp hu
      exact matches_cons.mpr
        ⟨u₁, u₂ ++ v, List.append_assoc .., hu₁, ih.mpr ⟨u₂, v, rfl, hu₂, hv⟩⟩

/-- A star takes any part in front and leaves a suffix to the rest of the pattern. -/
theorem matches_star_cons {p : List (Piece α)} {s : List α} :
    Matches (.star :: p) s ↔ ∃ v, v <:+ s ∧ Matches p v := by
  rw [matches_cons]
  constructor
  · rintro ⟨u, v, rfl, -, hv⟩
    exact ⟨v, List.suffix_append u v, hv⟩
  · rintro ⟨v, ⟨u, rfl⟩, hv⟩
    exact ⟨u, v, rfl, trivial, hv⟩

/-- One star matches every word. -/
theorem matches_star (s : List α) : Matches [.star] s :=
  matches_star_cons.mpr ⟨[], List.nil_suffix, matches_nil.mpr rfl⟩

/-- More stars match no more and no less. -/
theorem matches_star_star (s : List α) : Matches [.star, .star] s :=
  matches_star_cons.mpr ⟨s, List.suffix_rfl, matches_star s⟩

/-- A piece other than a star takes exactly one letter. -/
theorem Piece.length_of_accepts {c : Piece α} (hc : c ≠ .star) {u : List α} (h : c.Accepts u) :
    u.length = 1 := by
  cases c with
  | star => exact absurd rfl hc
  | any => exact h
  | lit a => rw [show u = [a] from h, List.length_singleton]

/-- A piece other than a star takes the first letter. -/
theorem matches_cons_cons {c : Piece α} (hc : c ≠ .star) {p : List (Piece α)} {b : α}
    {s : List α} : Matches (c :: p) (b :: s) ↔ c.Accepts [b] ∧ Matches p s := by
  rw [matches_cons]
  constructor
  · rintro ⟨u, v, heq, hu, hv⟩
    obtain ⟨a, rfl⟩ := List.length_eq_one_iff.mp (Piece.length_of_accepts hc hu)
    obtain ⟨rfl, rfl⟩ := List.cons.inj heq
    exact ⟨hu, hv⟩
  · rintro ⟨hb, hs⟩
    exact ⟨[b], s, rfl, hb, hs⟩

/-- **Only stars match the empty word.** -/
theorem matches_nil_iff {p : List (Piece α)} : Matches p [] ↔ ∀ c ∈ p, c = .star := by
  induction p with
  | nil => simp [matches_nil]
  | cons c p ih =>
    rw [List.forall_mem_cons, ← ih, matches_cons]
    constructor
    · rintro ⟨u, v, heq, hu, hv⟩
      obtain ⟨rfl, rfl⟩ := List.append_eq_nil_iff.mp heq.symm
      -- a piece that is not a star has no empty part
      refine ⟨Classical.not_not.mp fun hc => ?_, hv⟩
      have hlen : ([] : List α).length = 1 := Piece.length_of_accepts hc hu
      exact absurd hlen Nat.zero_ne_one
    · rintro ⟨rfl, hp⟩
      exact ⟨[], [], rfl, trivial, hp⟩

end Glob
