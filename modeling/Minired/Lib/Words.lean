import Mathlib.Data.List.Sort

/-!
# The words of a line

A line is a list of letters, some of which are separators. Its words are the maximal runs of
letters that are not: a run is given by the position where it starts and the one behind its end,
and it is maximal when the letters next to it, as far as there are any, are separators.

* `IsRun`, `MaximalRuns` — this definition; all the runs, in the order of their positions;
* `MaximalRuns.unique` — a line has its words in one way;
* `maximalRuns_nil`, `MaximalRuns.blank`, `MaximalRuns.word` — the words of a line that is read from
  its front, for the scanners that skip separators and then take a word;
* `maximalRuns_joined` — words that are joined with separators are the words of the result.
-/

namespace Words

variable {α : Type*} (sep : α → Prop)

/-- The letters from `r.1` on in front of `r.2` are a maximal run without separators. -/
structure IsRun (text : List α) (r : ℕ × ℕ) : Prop where
  nonempty : r.1 < r.2
  inside : r.2 ≤ text.length
  letters : ∀ k, r.1 ≤ k → k < r.2 → ∀ a ∈ text[k]?, ¬sep a
  left : ∀ k, k + 1 = r.1 → ∀ a ∈ text[k]?, sep a
  right : ∀ a ∈ text[r.2]?, sep a

/-- The letters of a run. -/
def slice (text : List α) (r : ℕ × ℕ) : List α := (text.drop r.1).take (r.2 - r.1)

/-- **The maximal runs of the line**, all of them and in order. -/
def MaximalRuns (text : List α) (words : List (List α)) : Prop :=
  ∃ rs : List (ℕ × ℕ), rs.Pairwise (fun r r' => r.1 < r'.1) ∧ (∀ r, r ∈ rs ↔ IsRun sep text r) ∧
    rs.map (slice text) = words

variable {sep} {u v text w : List α} {words words' : List (List α)} {r : ℕ × ℕ}

/-- A line has its words in one way. -/
theorem MaximalRuns.unique (h : MaximalRuns sep text words) (h' : MaximalRuns sep text words') :
    words = words' := by
  obtain ⟨rs, hrs, hmem, rfl⟩ := h
  obtain ⟨rs', hrs', hmem', rfl⟩ := h'
  have : Std.Antisymm fun r r' : ℕ × ℕ => r.1 < r'.1 :=
    ⟨fun _ _ h h' => absurd h (lt_asymm h')⟩
  have : Std.Irrefl fun r r' : ℕ × ℕ => r.1 < r'.1 := ⟨fun _ => lt_irrefl _⟩
  have hsame : rs = rs' := hrs.eq_of_mem_iff hrs' fun r => (hmem r).trans (hmem' r).symm
  rw [hsame]

/-! ### Reading a line from its front -/

/-- The same letters, counted from a position `n` places in front. -/
def shift (n : ℕ) (r : ℕ × ℕ) : ℕ × ℕ := (r.1 + n, r.2 + n)

/-- The letters of a run do not depend on what stands in front of the line. -/
theorem slice_shift (u v : List α) (r : ℕ × ℕ) :
    slice (u ++ v) (shift u.length r) = slice v r := by
  unfold slice shift
  dsimp only
  rw [Nat.add_comm r.1, ← List.drop_drop, List.drop_left, Nat.add_comm u.length,
    Nat.add_sub_add_right]

/-- A position behind the part in front. -/
theorem getElem?_shift (u v : List α) (k : ℕ) : (u ++ v)[k + u.length]? = v[k]? := by
  rw [List.getElem?_append_right (Nat.le_add_left ..), Nat.add_sub_cancel]

/-- What is a run behind the part in front is one without it. -/
theorem IsRun.of_shift (h : IsRun sep (u ++ v) (shift u.length r)) : IsRun sep v r := by
  refine ⟨Nat.lt_of_add_lt_add_right h.nonempty, ?_, ?_, ?_, ?_⟩
  · have hin := h.inside
    rw [List.length_append, Nat.add_comm u.length] at hin
    exact Nat.le_of_add_le_add_right hin
  · intro k hk hk'
    rw [← getElem?_shift u]
    exact h.letters _ (Nat.add_le_add_right hk _) (Nat.add_lt_add_right hk' _)
  · intro k hk
    rw [← getElem?_shift u]
    exact h.left _ (by rw [shift, ← hk, Nat.add_right_comm])
  · have hright := h.right
    rwa [shift, getElem?_shift] at hright

/-- A run that does not go on into the part in front. -/
theorem IsRun.shift (h : IsRun sep v r) (hlast : r.1 = 0 → ∀ a ∈ u.getLast?, sep a) :
    IsRun sep (u ++ v) (shift u.length r) := by
  refine ⟨Nat.add_lt_add_right h.nonempty _, ?_, ?_, ?_, ?_⟩
  · rw [List.length_append, Nat.add_comm u.length]
    exact Nat.add_le_add_right h.inside _
  · intro k hk hk'
    obtain ⟨j, rfl⟩ : ∃ j, k = j + u.length :=
      ⟨k - u.length, (Nat.sub_add_cancel ((Nat.le_add_left ..).trans hk)).symm⟩
    rw [getElem?_shift]
    exact h.letters j (Nat.le_of_add_le_add_right hk) (Nat.lt_of_add_lt_add_right hk')
  · intro k hk
    have hk : k + 1 = r.1 + u.length := hk
    by_cases hzero : r.1 = 0
    · -- the letter in front of the run is the last one of `u`
      have hlt : k < u.length := by omega
      have hend : k = u.length - 1 := by omega
      rw [List.getElem?_append_left hlt, hend, ← List.getLast?_eq_getElem?]
      exact hlast hzero
    · obtain ⟨j, rfl⟩ : ∃ j, k = j + u.length := ⟨k - u.length, by omega⟩
      rw [getElem?_shift]
      exact h.left j (by omega)
  · rw [Words.shift, getElem?_shift]
    exact h.right

/-- A run begins with a letter that is no separator. -/
theorem IsRun.first (h : IsRun sep text r) : ∃ a, text[r.1]? = some a ∧ ¬sep a := by
  have hlt : r.1 < text.length := lt_of_lt_of_le h.nonempty h.inside
  exact ⟨text[r.1], List.getElem?_eq_getElem hlt,
    h.letters r.1 le_rfl h.nonempty _ (List.getElem?_eq_getElem hlt)⟩

/-- A run that starts behind the part in front. -/
theorem IsRun.eq_shift (h : IsRun sep text r) {n : ℕ} (hn : n ≤ r.1) :
    r = Words.shift n (r.1 - n, r.2 - n) := by
  unfold Words.shift
  ext
  · exact (Nat.sub_add_cancel hn).symm
  · exact (Nat.sub_add_cancel (hn.trans h.nonempty.le)).symm

/-- The order of the runs stays. -/
theorem pairwise_shift {rs : List (ℕ × ℕ)} (hrs : rs.Pairwise fun r r' => r.1 < r'.1) (n : ℕ) :
    (rs.map (shift n)).Pairwise fun r r' => r.1 < r'.1 :=
  List.pairwise_map.mpr (hrs.imp fun h => Nat.add_lt_add_right h n)

/-- The empty line has no words. -/
theorem maximalRuns_nil : MaximalRuns sep [] [] := by
  refine ⟨[], List.Pairwise.nil, fun r => ⟨fun h => absurd h List.not_mem_nil, fun h => ?_⟩, rfl⟩
  exact absurd h.inside (not_le.mpr (lt_of_le_of_lt (Nat.zero_le _) h.nonempty))

/-- **Separators in front** do not matter. -/
theorem MaximalRuns.blank (hu : ∀ a ∈ u, sep a) (h : MaximalRuns sep text words) :
    MaximalRuns sep (u ++ text) words := by
  obtain ⟨rs, hrs, hmem, rfl⟩ := h
  refine ⟨rs.map (shift u.length), pairwise_shift hrs _, fun r => ?_, ?_⟩
  · rw [List.mem_map]
    constructor
    · rintro ⟨r, hr, rfl⟩
      exact ((hmem r).mp hr).shift fun _ a ha => hu a (List.mem_of_getLast? ha)
    · intro hr
      -- a run does not start at a separator
      have hstart : u.length ≤ r.1 := by
        by_contra hlt
        obtain ⟨a, ha, hsep⟩ := hr.first
        rw [List.getElem?_append_left (not_le.mp hlt)] at ha
        exact hsep (hu a (List.mem_of_getElem? ha))
      have heq := hr.eq_shift hstart
      rw [heq] at hr
      exact ⟨_, (hmem _).mpr hr.of_shift, heq.symm⟩
  · rw [List.map_map]
    exact List.map_congr_left fun r _ => slice_shift u text r

/-- A word in front of a separator, or at the end, is a run. -/
theorem isRun_word (hne : w ≠ []) (hword : ∀ a ∈ w, ¬sep a)
    (hend : ∀ a ∈ text.head?, sep a) : IsRun sep (w ++ text) (0, w.length) := by
  refine ⟨List.length_pos_iff.mpr hne, ?_, ?_, fun k hk => absurd hk (Nat.succ_ne_zero k), ?_⟩
  · rw [List.length_append]
    exact Nat.le_add_right ..
  · intro k _ hk a ha
    rw [List.getElem?_append_left hk] at ha
    exact hword a (List.mem_of_getElem? ha)
  · intro a ha
    rw [List.getElem?_append_right le_rfl, Nat.sub_self, ← List.head?_eq_getElem?] at ha
    exact hend a ha

/-- It is the only one that starts in it. -/
theorem IsRun.eq_word (hword : ∀ a ∈ w, ¬sep a) (hend : ∀ a ∈ text.head?, sep a)
    (h : IsRun sep (w ++ text) r) (hstart : r.1 < w.length) : r = (0, w.length) := by
  have hletter : ∀ k (hk : k < w.length), (w ++ text)[k]? = some w[k] := fun k hk => by
    rw [List.getElem?_append_left hk, List.getElem?_eq_getElem hk]
  have hfirst : r.1 = 0 := by
    by_contra hpos
    have hk : r.1 - 1 < w.length := lt_of_le_of_lt (Nat.sub_le ..) hstart
    exact hword _ (List.getElem_mem hk) (h.left _ (Nat.succ_pred hpos) _ (hletter _ hk))
  have hle : r.2 ≤ w.length := by
    by_contra hlt
    -- the separator behind the word would be in the run
    have hin := lt_of_lt_of_le (not_le.mp hlt) h.inside
    have hhead : (w ++ text)[w.length]? = some (w ++ text)[w.length] :=
      List.getElem?_eq_getElem hin
    refine h.letters _ hstart.le (not_le.mp hlt) _ hhead (hend _ ?_)
    rw [List.head?_eq_getElem?, Option.mem_def, ← hhead, List.getElem?_append_right le_rfl,
      Nat.sub_self]
  have hge : w.length ≤ r.2 := by
    by_contra hlt
    exact hword _ (List.getElem_mem (not_le.mp hlt)) (h.right _ (hletter _ (not_le.mp hlt)))
  ext
  · exact hfirst
  · exact le_antisymm hle hge

/-- **A word in front** of a separator, or at the end, is the first one. -/
theorem MaximalRuns.word (hne : w ≠ []) (hword : ∀ a ∈ w, ¬sep a)
    (hend : ∀ a ∈ text.head?, sep a) (h : MaximalRuns sep text words) :
    MaximalRuns sep (w ++ text) (w :: words) := by
  obtain ⟨rs, hrs, hmem, rfl⟩ := h
  have hpos : 0 < w.length := List.length_pos_iff.mpr hne
  refine ⟨(0, w.length) :: rs.map (shift w.length), ?_, fun r => ?_, ?_⟩
  · refine List.pairwise_cons.mpr ⟨fun r hr => ?_, pairwise_shift hrs _⟩
    obtain ⟨r, -, rfl⟩ := List.mem_map.mp hr
    exact Nat.add_pos_right _ hpos
  · rw [List.mem_cons, List.mem_map]
    constructor
    · rintro (rfl | ⟨r, hr, rfl⟩)
      · exact isRun_word hne hword hend
      · -- the text begins with a separator, so its runs do not
        refine ((hmem r).mp hr).shift fun hzero => ?_
        obtain ⟨a, ha, hsep⟩ := ((hmem r).mp hr).first
        rw [hzero, ← List.head?_eq_getElem?] at ha
        exact absurd (hend a ha) hsep
    · intro hr
      rcases Nat.lt_or_ge r.1 w.length with hstart | hstart
      · exact .inl (hr.eq_word hword hend hstart)
      · have heq := hr.eq_shift hstart
        rw [heq] at hr
        exact .inr ⟨_, (hmem _).mpr hr.of_shift, heq.symm⟩
  · rw [List.map_cons, List.map_map]
    congr 1
    · exact List.take_left
    · exact List.map_congr_left fun r _ => slice_shift w text r

/-- **Words that are joined** with separators, each one behind the separators that stand in front
of it, are the words of the line. -/
theorem maximalRuns_joined (ps : List (List α × List α)) {trail : List α}
    (hblank : ∀ p ∈ ps, ∀ a ∈ p.1, sep a) (hne : ∀ p ∈ ps, p.2 ≠ [])
    (hword : ∀ p ∈ ps, ∀ a ∈ p.2, ¬sep a) (hapart : ∀ p ∈ ps.tail, p.1 ≠ [])
    (htrail : ∀ a ∈ trail, sep a) :
    MaximalRuns sep (ps.flatMap (fun p => p.1 ++ p.2) ++ trail) (ps.map Prod.snd) := by
  induction ps with
  | nil =>
    have hnil : MaximalRuns sep [] [] := maximalRuns_nil
    have hend := hnil.blank htrail
    rwa [List.append_nil] at hend
  | cons p ps ih =>
    have hrest := ih (fun q hq => hblank q (List.mem_cons_of_mem p hq))
      (fun q hq => hne q (List.mem_cons_of_mem p hq))
      (fun q hq => hword q (List.mem_cons_of_mem p hq))
      (fun q hq => hapart q (List.mem_of_mem_tail hq))
    -- what follows the word begins with a separator
    have hend : ∀ a ∈ (ps.flatMap (fun p => p.1 ++ p.2) ++ trail).head?, sep a := by
      intro a ha
      cases ps with
      | nil => exact htrail a (List.mem_of_mem_head? ha)
      | cons q qs =>
        obtain ⟨b, gap, hgap⟩ := List.exists_cons_of_ne_nil (hapart q List.mem_cons_self)
        have hq := hblank q (List.mem_cons_of_mem p List.mem_cons_self)
        rw [List.flatMap_cons, hgap] at ha
        obtain rfl : b = a := Option.some.inj ha
        exact hq b (hgap ▸ List.mem_cons_self)
    rw [List.flatMap_cons, List.append_assoc, List.append_assoc, List.map_cons]
    exact (hrest.word (hne p List.mem_cons_self) (hword p List.mem_cons_self) hend).blank
      (hblank p List.mem_cons_self)

end Words
