import Minired.LinkedListDeque

/-!
# Reading a doubly linked list by index

`list_index` and `list_range` walk along the nodes a number of times that is computed from the
arguments and `len`, and they follow every pointer without looking whether it is null. The chain
that a `Repr` gives is as long as `len`, so a walk of up to `len` steps stays in it (`walk_eq`,
`copy_eq`), and the clamped arguments never ask for more.

`Repr.index_eq` and `Repr.range_eq` find that the walks read what `listIndex` and `listRange` read
off the content. `list_access_exact` says this of every list that pushes and pops can make.
-/

namespace Minired

open TwoWay Transducer

/-- An index that is a `long` stays one when the length of the list is added: the computation of
`normalize_index` does not overflow. -/
theorem normalizeIndex_bounds {index : Int} {len : ℕ} (hlo : -2 ^ 63 ≤ index) (hhi : index < 2 ^ 63)
    (hlen : len < 2 ^ 63) :
    -2 ^ 63 ≤ normalizeIndex index len ∧ normalizeIndex index len < 2 ^ 63 := by
  unfold normalizeIndex
  split <;> constructor <;> omega

namespace LinkedList

variable {l : LinkedList} {as : List Addr} {p : Option Addr}

/-- **A walk** inside the chain follows no null pointer. -/
theorem walk_eq {e : End} (h : Follows (l.link e) p as) (hlive : ∀ a ∈ as, (l.mem a).isSome)
    {k : ℕ} (hk : k ≤ as.length) : l.walk e k p = some as[k]? := by
  rw [← h.follow_eq k]
  induction k generalizing p as with
  | zero => rfl
  | succ k ih =>
    cases as with
    | nil => exact absurd hk (Nat.not_succ_le_zero k)
    | cons a as =>
      obtain ⟨n, hn⟩ := Option.isSome_iff_exists.mp (hlive a List.mem_cons_self)
      have hlink : l.link e a = n.inward e := by
        rw [link, hn]
        rfl
      have hnext := h.2
      rw [hlink] at hnext
      rw [h.1, walk, deref, Option.bind_some, hn, follow, Option.bind_some, hlink]
      exact ih hnext (fun b hb => hlive b (List.mem_cons_of_mem a hb)) (Nat.le_of_succ_le_succ hk)

/-- **The copying loop** inside the chain follows no null pointer, and copies the values. -/
theorem copy_eq (h : Follows (l.link .front) p as) {xs : List Bytes}
    (hvalues : as.map (fun a => (l.mem a).map ListNode.value) = xs.map some) {k : ℕ}
    (hk : k ≤ as.length) : l.copy k p = some (xs.take k) := by
  induction k generalizing p as xs with
  | zero => rw [List.take_zero, copy]
  | succ k ih =>
    cases as with
    | nil => exact absurd hk (Nat.not_succ_le_zero k)
    | cons a as =>
      cases xs with
      | nil => cases hvalues
      | cons x xs =>
        obtain ⟨hx, hrest⟩ := List.cons.inj hvalues
        obtain ⟨n, hn, rfl⟩ := Option.map_eq_some_iff.mp hx
        have hlink : l.link .front a = n.next := by
          rw [link, hn]
          rfl
        have hnext := h.2
        rw [hlink] at hnext
        rw [h.1, copy, deref, Option.bind_some, hn, List.take_succ_cons]
        show (l.copy k n.next).bind _ = _
        rw [ih hnext hrest (Nat.le_of_succ_le_succ hk)]
        rfl

namespace Repr

variable {xs : List Bytes}

/-- The value at the end of a walk to a place of the list. -/
theorem value_eq (h : l.Repr as xs) {i : ℕ} (hi : i < xs.length) :
    (l.deref as[i]?).map ListNode.value = xs[i]? := by
  have hlt : i < as.length := h.length_eq ▸ hi
  obtain ⟨n, hn, hx⟩ := h.node (List.getElem?_eq_getElem hlt)
  rw [List.getElem?_eq_getElem hlt, deref, Option.bind_some, hn, hx]
  rfl

/-- The walk of `list_index` ends at the node of the index. -/
theorem seek_eq (h : l.Repr as xs) {i : ℕ} (hi : i < xs.length) : l.seek i = some as[i]? := by
  have hlen := h.length_eq
  have hlive : ∀ a ∈ as, (l.mem a).isSome := fun a ha => (h.live a).mpr ha
  rw [seek, Int.toNat_natCast, h.len_eq]
  split
  case isTrue => exact walk_eq h.chain.forth hlive (by omega)
  case isFalse =>
    -- as many steps from the tail as places are behind this one
    have hsteps : ((xs.length : Int) - 1 - i).toNat = as.length - 1 - i := by omega
    have hback : as.length - 1 - (as.length - 1 - i) = i := by omega
    rw [hsteps, walk_eq h.chain.back (fun a ha => hlive a (List.mem_reverse.mp ha))
      (by rw [List.length_reverse]; omega), List.getElem?_reverse (by omega), hback]

/-- **`list_index`** reads the content, from either end. -/
theorem index_eq (h : l.Repr as xs) (index : Int) : l.index index = some (listIndex xs index) := by
  unfold LinkedList.index listIndex
  rw [h.len_eq]
  dsimp only
  split
  case isTrue => rfl
  case isFalse hrange =>
    obtain ⟨i, hi⟩ : ∃ i : ℕ, normalizeIndex index xs.length = i :=
      ⟨(normalizeIndex index xs.length).toNat, by omega⟩
    have hlt : i < xs.length := by omega
    have hvalue := h.value_eq hlt
    rw [List.getElem?_eq_getElem hlt] at hvalue
    obtain ⟨n, hn, hx⟩ := Option.map_eq_some_iff.mp hvalue
    rw [hi, Int.toNat_natCast, h.seek_eq hlt, List.getElem?_eq_getElem hlt, ← hx]
    show (l.deref as[i]?).bind _ = _
    rw [hn]
    rfl

/-- **`list_range`** reads the content. -/
theorem range_eq (h : l.Repr as xs) (start stop : Int) (maxOut : ℕ) :
    l.range start stop maxOut = some (listRange xs start stop maxOut) := by
  unfold LinkedList.range listRange
  rw [h.len_eq]
  dsimp only
  -- the clamped bounds
  obtain ⟨lo, hlo⟩ : ∃ lo : Int, lo = if normalizeIndex start xs.length < 0 then 0
      else normalizeIndex start xs.length := ⟨_, rfl⟩
  obtain ⟨hi, hhi⟩ : ∃ hi : Int, hi = if normalizeIndex stop xs.length ≥ (xs.length : Int)
      then (xs.length : Int) - 1 else normalizeIndex stop xs.length := ⟨_, rfl⟩
  have hlo0 : 0 ≤ lo := by
    rw [hlo]
    split <;> omega
  have hhi1 : hi ≤ (xs.length : Int) - 1 := by
    rw [hhi]
    split <;> omega
  rw [← hlo, ← hhi]
  by_cases hempty : lo > hi
  · rw [if_pos hempty, if_pos hempty]
  · -- the part of the chain between them
    have hlen := h.length_eq
    have hlive : ∀ a ∈ as, (l.mem a).isSome := fun a ha => (h.live a).mpr ha
    rw [if_neg hempty, if_neg hempty]
    show (l.walk .front lo.toNat l.head).bind _ = _
    rw [walk_eq h.chain.forth hlive (by omega), Option.bind_some]
    refine copy_eq (h.chain.forth.drop lo.toNat) ?_ ?_
    · rw [List.map_drop, h.values, List.map_drop]
    · rw [List.length_drop]
      omega

end Repr

end LinkedList

/-! ### What is read -/

/-- **`list_index`**, on the content: the value at the place of the index, counted from the end
when it is negative, and null when there is no such place. -/
theorem listIndex_spec (xs : List Bytes) (index : Int) :
    let i := normalizeIndex index xs.length
    (0 ≤ i ∧ i < xs.length → listIndex xs index = xs[i.toNat]?) ∧
      (listIndex xs index = none ↔ ¬(0 ≤ i ∧ i < xs.length)) := by
  intro i
  unfold listIndex
  by_cases hi : 0 ≤ i ∧ i < xs.length
  · have hlt : i.toNat < xs.length := by omega
    rw [if_neg (by omega)]
    refine ⟨fun _ => rfl, iff_of_false ?_ (not_not_intro hi)⟩
    rw [List.getElem?_eq_getElem hlt]
    exact Option.some_ne_none _
  · rw [if_pos (by omega)]
    exact ⟨fun h => absurd h hi, iff_of_true rfl hi⟩

/-- **`list_range`**, on the content: the first values between the bounds, as many as there is
room for. -/
theorem listRange_eq (xs : List Bytes) (start stop : Int) (maxOut : ℕ) :
    let lo := max 0 (normalizeIndex start xs.length)
    let hi := min ((xs.length : Int) - 1) (normalizeIndex stop xs.length)
    listRange xs start stop maxOut = ((xs.drop lo.toNat).take (hi - lo + 1).toNat).take maxOut := by
  intro lo hi
  have hlo : (if normalizeIndex start xs.length < 0 then 0 else normalizeIndex start xs.length) =
      lo := by omega
  have hhi : (if normalizeIndex stop xs.length ≥ (xs.length : Int) then (xs.length : Int) - 1
      else normalizeIndex stop xs.length) = hi := by omega
  unfold listRange
  dsimp only
  rw [hlo, hhi, List.take_take, min_comm]
  by_cases hempty : lo > hi
  · have hzero : (hi - lo + 1).toNat = 0 := by omega
    rw [if_pos hempty, hzero, Nat.min_zero, List.take_zero]
  · rw [if_neg hempty]

/-- **Reading by index is exact.** On every list made by pushes and pops, for all arguments:
`list_index` returns the value at the place of the index, and null exactly when there is none,
and `list_range` writes the first values between the bounds, each of them what `list_index`
returns for its place. Neither follows a null pointer: both have a result. -/
theorem list_access_exact (ops : List ListOp) :
    let xs := (run ListOp.onQueue [] ops).1
    ∃ l, (run ListOp.onNodes (some .new) ops).1 = some l ∧
      (∀ index : Int, ∃ r, l.index index = some r ∧
        let i := normalizeIndex index xs.length
        (0 ≤ i ∧ i < xs.length → r = xs[i.toNat]?) ∧ (r = none ↔ ¬(0 ≤ i ∧ i < xs.length))) ∧
      ∀ (start stop : Int) (maxOut : ℕ), ∃ out, l.range start stop maxOut = some out ∧
        let lo := max 0 (normalizeIndex start xs.length)
        let hi := min ((xs.length : Int) - 1) (normalizeIndex stop xs.length)
        out = ((xs.drop lo.toNat).take (hi - lo + 1).toNat).take maxOut ∧
          ∀ j, j < out.length → l.index (lo + j) = some out[j]? := by
  intro xs
  obtain ⟨⟨l, as, hl, hrepr⟩, -⟩ := run_simulation (R := ListRel)
    (fun op _ _ h => h.step op) ⟨.new, [], rfl, LinkedList.repr_new⟩ ops
  refine ⟨l, hl, fun index => ⟨_, hrepr.index_eq index, listIndex_spec xs index⟩,
    fun start stop maxOut => ⟨_, hrepr.range_eq start stop maxOut, ?_⟩⟩
  intro lo hi
  have hout := listRange_eq xs start stop maxOut
  refine ⟨hout, fun j hj => ?_⟩
  -- the place of an output is inside the list, and not negative
  have hlo : 0 ≤ lo := le_max_left _ _
  have hplace : normalizeIndex (lo + j) xs.length = lo + j := if_neg (by omega)
  have hinside : j < (hi - lo + 1).toNat ∧ j < maxOut ∧ lo.toNat + j < xs.length := by
    have hj' : j < (listRange xs start stop maxOut).length := hj
    rw [hout, List.length_take, List.length_take, List.length_drop] at hj'
    omega
  obtain ⟨hjhi, hjmax, hjlen⟩ := hinside
  have hread := (listIndex_spec xs (lo + j)).1 (by rw [hplace]; omega)
  have hnat : (lo + j).toNat = lo.toNat + j := by omega
  rw [hplace, hnat] at hread
  rw [hrepr.index_eq, hread, hout, List.getElem?_take_of_lt hjmax, List.getElem?_take_of_lt hjhi,
    List.getElem?_drop]

end Minired
