import Minired.Lib.Chain

/-!
# Towers: the linked structure of a skip list

A list `L` of addresses, each with a height, is linked on every level: the level-`i`
chain from the top address consists of the addresses of `L` higher than `i`
(`Towers`). A search descends the levels and walks on each of them while a test `p`
holds; `descend` is that search, and it records where it left each level.

The search is analysed for an *arbitrary* test `p`, not one that is monotone along the
list. It stops at some position of `L` (`descend_spec`): what it recorded for level `i`
is the last address before that position that is higher than `i`. The reason is that the
test looks at the address alone, so an address that stopped the walk on one level stops
it on every lower one. That is all that insertion and deletion at the position need
(`Towers.insert`, `Towers.delete`), so the linked structure survives also when the list
is not sorted.
-/

namespace Tower

open Chain

variable {A : Type*}

/-- Level `i` links the addresses of `L` that are higher than `i`. -/
def Towers (next : ℕ → A → Option A) (height : A → ℕ) (top : A) (L : List A) : Prop :=
  ∀ i, Linked (next i) top (L.filter fun a => i < height a)

/-- The search: on each level, from the highest down, walk while `p` holds, record the
address reached, and go on from it one level lower. -/
def descend (next : ℕ → A → Option A) (p : A → Bool) (fuel : ℕ) : ℕ → A → (ℕ → A) → ℕ → A
  | 0, _, update => update
  | i + 1, x, update =>
    let x' := walk (next i) p fuel x
    descend next p fuel i x' (Function.update update i x')

/-- A prefix of a filtered list is the filter of a prefix that ends with the same element. -/
theorem exists_split_filter {q : A → Bool} {B T D : List A} (h : B.filter q = T ++ D) :
    ∃ B₁ B₂, B = B₁ ++ B₂ ∧ B₁.filter q = T ∧ B₂.filter q = D ∧ B₁.getLast? = T.getLast? := by
  rcases List.eq_nil_or_concat' T with rfl | ⟨T', y, rfl⟩
  · exact ⟨[], B, rfl, rfl, h, rfl⟩
  · rw [List.append_assoc] at h
    obtain ⟨l₁, l₂, rfl, h₁, h₂⟩ := List.filter_eq_append_iff.mp h
    obtain ⟨m₁, m₂, rfl, hm₁, hy, hm₂⟩ := List.filter_eq_cons_iff.mp h₂
    have hskip : m₁.filter q = [] := List.filter_eq_nil_iff.mpr hm₁
    refine ⟨l₁ ++ m₁ ++ [y], m₂, by simp, ?_, hm₂, by simp⟩
    rw [List.filter_append, List.filter_append, h₁, hskip, List.filter_cons_of_pos hy]
    simp

/-- The last element of a filtered list, or the top address when there is none. -/
theorem getLastD_filter_mem (q : A → Bool) (top : A) (L : List A) :
    (L.filter q).getLastD top ∈ top :: L := by
  rw [← List.getLast_eq_getLastD (List.cons_ne_nil top _)]
  exact List.cons_subset_cons top (List.filter_subset_self L) (List.getLast_mem _)

section Search

variable {next : ℕ → A → Option A} {height : A → ℕ} {top : A} {L : List A}
  (hT : Towers next height top L) (p : A → Bool) {fuel : ℕ} (hfuel : L.length ≤ fuel)

include hT hfuel

/-- One level of the search, in terms of positions. The search stands behind `A₁`, and no
higher level can be walked further; the walk moves the position within `B`, over addresses
that satisfy `p`, and after it no level from `i` up can be walked further. -/
theorem walk_position {i : ℕ} {A₁ B : List A} (hL : L = A₁ ++ B)
    (hhigh : ∀ a, A₁.getLast? = some a → i < height a)
    (hstop : ∀ j, i < j → ∀ b, (B.filter fun a => j < height a).head? = some b → p b = false) :
    ∃ B₁ B₂, B = B₁ ++ B₂ ∧
      walk (next i) p fuel (A₁.getLastD top) = (A₁ ++ B₁).getLastD top ∧
      (∀ j, i < j → B₁.filter (fun a => j < height a) = []) ∧
      (∀ a, B₁.getLast? = some a → i < height a ∧ p a = true) ∧
      (∀ j, i ≤ j → ∀ b, (B₂.filter fun a => j < height a).head? = some b → p b = false) := by
  obtain ⟨B₁, B₂, rfl, hT₁, hD, hlast⟩ :=
    exists_split_filter (q := fun a => i < height a) (B := B)
      (List.takeWhile_append_dropWhile (p := p)).symm
  -- the level-`i` chain goes on from the position with the level-`i` part of `B`
  have hlink : Linked (next i) (A₁.getLastD top) ((B₁ ++ B₂).filter fun a => i < height a) := by
    have h := hT i
    rw [hL, List.filter_append] at h
    -- the position itself is on the level
    have hsame : (A₁.filter fun a => i < height a).getLastD top = A₁.getLastD top := by
      rcases List.eq_nil_or_concat' A₁ with rfl | ⟨A', a, rfl⟩
      · rfl
      · have ha := hhigh a (by simp)
        rw [List.filter_append, List.filter_cons_of_pos (by simpa using ha)]
        simp
    rw [← hsame]
    exact h.tail
  have hlen : ((B₁ ++ B₂).filter fun a => i < height a).length ≤ fuel := by
    refine le_trans (List.length_filter_le _ _) (le_trans ?_ hfuel)
    rw [hL]
    simp
  have hwalked : ∀ a ∈ B₁.filter (fun a => i < height a), p a = true := by
    rw [hT₁]
    exact fun a ha => List.mem_takeWhile_imp ha
  -- an address of `B₁` above level `i` would have stopped the walk of its level
  have hnone : ∀ j, i < j → B₁.filter (fun a => j < height a) = [] := by
    intro j hj
    cases hB₁ : B₁.filter (fun a => j < height a) with
    | nil => rfl
    | cons b bs =>
      have hb : b ∈ B₁.filter (fun a => j < height a) := hB₁ ▸ List.mem_cons_self
      have hfalse := hstop j hj b (by rw [List.filter_append, hB₁]; rfl)
      rw [List.mem_filter, decide_eq_true_eq] at hb
      have htrue := hwalked b (List.mem_filter.mpr ⟨hb.1, by simpa using hj.trans hb.2⟩)
      rw [htrue] at hfalse
      exact absurd hfalse (by decide)
  refine ⟨B₁, B₂, rfl, ?_, hnone, fun a ha => ?_, fun j hj b hb => ?_⟩
  · -- the walk ends at the last address of `B₁`, or has not moved
    rw [walk_eq hlink p hlen, List.getLastD_eq_getLast?, ← hlast, List.getLastD_eq_getLast?,
      List.getLastD_eq_getLast?, List.getLast?_append]
    cases B₁.getLast? <;> rfl
  · have hmem : a ∈ B₁.filter (fun a => i < height a) := by
      rw [hT₁]
      exact List.mem_of_getLast? (hlast ▸ ha)
    exact ⟨by simpa using (List.mem_filter.mp hmem).2, hwalked a hmem⟩
  · rcases hj.eq_or_lt with rfl | hlt
    · -- on level `i` the walk stopped at the first address that fails the test
      rw [hD] at hb
      have hne : ((B₁ ++ B₂).filter fun a => i < height a).dropWhile p ≠ [] :=
        fun h => by rw [h] at hb; exact absurd hb (by simp)
      have hhead := List.head_dropWhile_not p hne
      rw [List.head?_eq_some_head hne, Option.some.injEq] at hb
      rw [← hb]
      simpa using hhead
    · refine hstop j hlt b ?_
      rw [List.filter_append, hnone j hlt, List.nil_append]
      exact hb

/-- The search from a position at which the levels from `i` up are exhausted. -/
theorem descend_position {i : ℕ} {A₁ B : List A} (hL : L = A₁ ++ B)
    (hhigh : ∀ a, A₁.getLast? = some a → i ≤ height a ∧ p a = true)
    (hstop : ∀ j, i ≤ j → ∀ b, (B.filter fun a => j < height a).head? = some b → p b = false)
    (update : ℕ → A) :
    ∃ B₁ B₂, B = B₁ ++ B₂ ∧
      (∀ j, i ≤ j → B₁.filter (fun a => j < height a) = []) ∧
      (∀ j, i ≤ j → descend next p fuel i (A₁.getLastD top) update j = update j) ∧
      (∀ j, j < i → descend next p fuel i (A₁.getLastD top) update j =
        ((A₁ ++ B₁).filter fun a => j < height a).getLastD top) ∧
      (∀ a, (A₁ ++ B₁).getLast? = some a → p a = true) ∧
      (∀ j b, (B₂.filter fun a => j < height a).head? = some b → p b = false) := by
  induction i generalizing A₁ B update with
  | zero =>
    exact ⟨[], B, rfl, fun _ _ => rfl, fun _ _ => rfl, fun j hj => absurd hj (Nat.not_lt_zero j),
      fun a ha => (hhigh a (by simpa using ha)).2, fun j b => hstop j (Nat.zero_le j) b⟩
  | succ i ih =>
    -- this level moves the position over `C₁`, the levels below it over `B₁`
    obtain ⟨C₁, C₂, rfl, hwalk, hnone, hend, hstop'⟩ :=
      walk_position hT p hfuel hL (fun a ha => (hhigh a ha).1) (fun j hj => hstop j hj)
    -- the walk ends at an address of level `i`, or where the level above ended
    have hhigh' : ∀ a, (A₁ ++ C₁).getLast? = some a → i < height a ∧ p a = true := by
      intro a ha
      rw [List.getLast?_append] at ha
      cases hC : C₁.getLast? with
      | none =>
        rw [hC, Option.none_or] at ha
        exact hhigh a ha
      | some c =>
        rw [hC, Option.some_or] at ha
        exact hend a (hC.trans ha)
    obtain ⟨B₁, B₂, rfl, hnone', hkeep, hrec, hp, hfinal⟩ :=
      ih (hL.trans (List.append_assoc ..).symm) (fun a ha => ⟨(hhigh' a ha).1.le, (hhigh' a ha).2⟩)
        hstop' (Function.update update i (walk (next i) p fuel (A₁.getLastD top)))
    rw [← hwalk] at hkeep hrec
    refine ⟨C₁ ++ B₁, B₂, (List.append_assoc ..).symm, fun j hj => ?_, fun j hj => ?_,
      fun j hj => ?_, ?_, hfinal⟩
    · rw [List.filter_append, hnone j hj, hnone' j (Nat.le_of_succ_le hj)]
      rfl
    · rw [descend]
      exact (hkeep j (Nat.le_of_succ_le hj)).trans (Function.update_of_ne (by omega) _ _)
    · rw [descend, ← List.append_assoc]
      rcases Nat.lt_succ_iff_lt_or_eq.mp hj with hlt | rfl
      · -- the address recorded for a lower level
        exact hrec j hlt
      · -- the address recorded for level `j` is the end of `A₁ ++ C₁`, which is high enough
        rw [hkeep j le_rfl, Function.update_self, hwalk, List.filter_append, hnone' j le_rfl,
          List.append_nil]
        rcases List.eq_nil_or_concat' (A₁ ++ C₁) with hnil | ⟨A', a, hA⟩
        · rw [hnil]
          rfl
        · have ha := (hhigh' a (by rw [hA]; simp)).1
          rw [hA, List.filter_append, List.filter_cons_of_pos (by simpa using ha)]
          simp
    · rw [← List.append_assoc]
      exact hp

/-- **The search.** From the top address, over at least as many levels as any address is
high, it finds a position `L = A₁ ++ B₁`: `p` holds at the end of `A₁` and fails at the
head of `B₁`, and the address recorded for a level is the last one of `A₁` above it. -/
theorem descend_spec {lv : ℕ} (hlv : ∀ a ∈ L, height a ≤ lv) (hpos : ∀ a ∈ L, 0 < height a)
    (update : ℕ → A) :
    ∃ A₁ B₁, L = A₁ ++ B₁ ∧
      (∀ j, j < lv → descend next p fuel lv top update j =
        (A₁.filter fun a => j < height a).getLastD top) ∧
      (∀ a, A₁.getLast? = some a → p a = true) ∧
      (∀ b, B₁.head? = some b → p b = false) := by
  -- no address is as high as `lv`, so there is nothing to walk over up there
  have hstop : ∀ j, lv ≤ j → ∀ b, (L.filter fun a => j < height a).head? = some b →
      p b = false := by
    intro j hj b hb
    have hmem := List.mem_filter.mp (List.mem_of_head? hb)
    have hlt : j < height b := by simpa using hmem.2
    exact absurd (hlv b hmem.1) (by omega)
  obtain ⟨A₁, B₁, hL, -, -, hrec, hend, hhead⟩ :=
    descend_position hT p hfuel (List.nil_append L).symm (fun a ha => absurd ha (by simp)) hstop
      update
  refine ⟨A₁, B₁, hL, hrec, hend, fun b hb => hhead 0 b ?_⟩
  -- every address is on level 0, so the position is where level 0 stops
  have hall : B₁.filter (fun a => 0 < height a) = B₁ :=
    List.filter_eq_self.mpr fun a ha => by
      simpa using hpos a (hL ▸ List.mem_append_right A₁ ha)
  rw [hall]
  exact hb

end Search

/-! ### Changing the list at a position -/

section Update

variable {next next' : ℕ → A → Option A} {height height' : A → ℕ} {top n : A} {A₁ B₁ : List A}

/-- The chain of a level has no address twice. -/
theorem filter_nodup (hnd : (top :: (A₁ ++ B₁)).Nodup) (q : A → Bool) :
    (top :: (A₁.filter q ++ B₁.filter q)).Nodup := by
  rw [← List.filter_append]
  exact hnd.sublist (List.filter_sublist.cons_cons top)

/-- What is left of the level below is on it. -/
theorem filter_subset (top : A) (A₁ B₁ : List A) (q : A → Bool) :
    ∀ a ∈ top :: (A₁.filter q ++ B₁.filter q), a ∈ top :: (A₁ ++ B₁) := by
  rw [← List.filter_append]
  exact fun a ha => (List.filter_sublist.cons_cons top).subset ha

/-- **Insertion at a position.** The new address is linked on the levels below its height,
behind the last address before the position that is on the level. -/
theorem Towers.insert (hT : Towers next height top (A₁ ++ B₁))
    (hnd : (top :: (A₁ ++ B₁)).Nodup) (hn : n ∉ top :: (A₁ ++ B₁))
    (hheight : ∀ a ∈ A₁ ++ B₁, height' a = height a)
    (hlow : ∀ i, i < height' n →
      next' i n = next i ((A₁.filter fun a => i < height a).getLastD top) ∧
      next' i ((A₁.filter fun a => i < height a).getLastD top) = some n)
    (hframe : ∀ i, ∀ a ∈ top :: (A₁ ++ B₁),
      (i < height' n → a ≠ (A₁.filter fun a => i < height a).getLastD top) →
      next' i a = next i a) :
    Towers next' height' top (A₁ ++ n :: B₁) := by
  -- each level is a chain of its own, in which the address is spliced or which stays as it is
  intro i
  have hfilter : ∀ C ⊆ A₁ ++ B₁,
      C.filter (fun a => i < height' a) = C.filter (fun a => i < height a) := by
    refine fun C hC => List.filter_congr fun a ha => ?_
    rw [hheight a (hC ha)]
  have hA := hfilter A₁ (List.subset_append_left A₁ B₁)
  have hB := hfilter B₁ (List.subset_append_right A₁ B₁)
  have hlink := hT i
  rw [List.filter_append] at hlink
  have hsub := filter_subset top A₁ B₁ fun a => i < height a
  rw [List.filter_append, hA]
  by_cases hi : i < height' n
  · rw [List.filter_cons_of_pos (by simpa using hi), hB]
    exact hlink.splice (filter_nodup hnd _) (fun h => hn (hsub n h)) (hlow i hi).1 (hlow i hi).2
      fun a ha hne => hframe i a (hsub a ha) fun _ => hne
  · rw [List.filter_cons_of_neg (by simpa using hi), hB]
    -- the new address is not on this level
    exact hlink.congr fun a ha => hframe i a (hsub a ha) fun h => absurd h hi

/-- **Deletion at a position.** The address behind the position is unlinked on the levels
below its height. -/
theorem Towers.delete (hT : Towers next height top (A₁ ++ n :: B₁))
    (hnd : (top :: (A₁ ++ n :: B₁)).Nodup)
    (hheight : ∀ a ∈ A₁ ++ B₁, height' a = height a)
    (hlow : ∀ i, i < height n →
      next' i ((A₁.filter fun a => i < height a).getLastD top) = next i n)
    (hframe : ∀ i, ∀ a ∈ top :: (A₁ ++ B₁),
      (i < height n → a ≠ (A₁.filter fun a => i < height a).getLastD top) →
      next' i a = next i a) :
    Towers next' height' top (A₁ ++ B₁) := by
  intro i
  have hfilter : (A₁ ++ B₁).filter (fun a => i < height' a) =
      (A₁ ++ B₁).filter (fun a => i < height a) :=
    List.filter_congr fun a ha => by rw [hheight a ha]
  have hsub := filter_subset top A₁ B₁ fun a => i < height a
  have hlink := hT i
  have hndi := filter_nodup hnd fun a => i < height a
  rw [hfilter, List.filter_append]
  rw [List.filter_append] at hlink
  by_cases hi : i < height n
  · -- the address is on this level, behind the last one of `A₁` there
    rw [List.filter_cons_of_pos (by simpa using hi)] at hlink hndi
    exact hlink.unsplice hndi (hlow i hi) fun a ha hne => hframe i a (hsub a ha) fun _ => hne
  · rw [List.filter_cons_of_neg (by simpa using hi)] at hlink
    -- the address was not on this level
    exact hlink.congr fun a ha => hframe i a (hsub a ha) fun h => absurd h hi

end Update

end Tower
