import Minired.SkipList

/-!
# The linked structure of the skip list

`SkipList.Repr sl L` says that the list `L` of addresses is what `sl` holds: level `i`
links the nodes of `L` higher than `i`, `level` is the highest level in use, `length` is
the number of nodes, and the heap has nothing but live cells below `brk`.

`Repr` says nothing about order, and neither do the specifications of the two updates.
A search finds *some* position of `L`, by a test that only looks at the node
(`slSearch_spec`); `slDelete_spec` and `slPlace_spec` say that a node is taken out and
put in there, and that nothing else about the nodes changes. So the structure also
survives scores that are not comparable and members that are not C strings. The order is
the subject of `Minired.SkipListOrder`.
-/

namespace Minired

open Chain Tower

/-- What a node says besides its pointers. -/
def slData (sl : SkipList) (a : Addr) : Option (Bytes × Double × ℕ) :=
  (sl.mem a).map fun n => (n.member, n.score, n.level)

/-- The level of a node. -/
def slHeight (sl : SkipList) (a : Addr) : ℕ := ((slData sl a).map (·.2.2)).getD 0

/-- The member and the score of a node. -/
def slPair (sl : SkipList) (a : Addr) : Bytes × Double :=
  ((slData sl a).map fun d => (d.1, d.2.1)).getD ([], headerScore)

/-- The skip list holds the nodes `L`, in this order. -/
structure SkipList.Repr (sl : SkipList) (L : List Addr) : Prop where
  towers : Towers (slForward sl) (slHeight sl) sl.header L
  nodup : (sl.header :: L).Nodup
  live : ∀ a ∈ sl.header :: L, (sl.mem a).isSome
  fresh : ∀ a, sl.brk ≤ a → sl.mem a = none
  height_pos : ∀ a ∈ L, 0 < slHeight sl a
  height_le : ∀ a ∈ L, slHeight sl a ≤ sl.level
  level_pos : 0 < sl.level
  level_used : sl.level = 1 ∨ ∃ a ∈ L, slHeight sl a = sl.level
  length_eq : sl.length = L.length

/-! ### Pointer writes -/

/-- A pointer that was written is read, and the others are as they were. -/
theorem slForward_setForward (sl : SkipList) (i : ℕ) (x : Addr) (y : Option Addr)
    (hx : (sl.mem x).isSome) (j : ℕ) (a : Addr) :
    slForward (slSetForward sl i x y) j a = if j = i ∧ a = x then y else slForward sl j a := by
  obtain ⟨n, hn⟩ := Option.isSome_iff_exists.mp hx
  by_cases ha : a = x
  · subst ha
    by_cases hj : j = i
    · subst hj
      simp [slForward, slSetForward, hn]
    · simp [slForward, slSetForward, hn, hj]
  · simp [slForward, slSetForward, ha]

/-- Writing a pointer leaves the data of all nodes alone. -/
@[simp] theorem slData_setForward (sl : SkipList) (i : ℕ) (x : Addr) (y : Option Addr)
    (a : Addr) : slData (slSetForward sl i x y) a = slData sl a := by
  by_cases ha : a = x
  · subst ha
    cases h : sl.mem a <;> simp [slData, slSetForward, h]
  · simp [slData, slSetForward, ha]

/-- Two skip lists that differ in pointers and fields of the list only. -/
def SameData (sl sl' : SkipList) : Prop := ∀ a, slData sl' a = slData sl a

/-- A node has data where it is live. -/
theorem slData_isSome (sl : SkipList) (a : Addr) : (slData sl a).isSome = (sl.mem a).isSome := by
  rw [slData, Option.isSome_map]

/-- Lists of the same data have the same live nodes. -/
theorem SameData.isSome {sl sl' : SkipList} (h : SameData sl sl') (a : Addr) :
    (sl'.mem a).isSome = (sl.mem a).isSome := by
  rw [← slData_isSome, h a, slData_isSome]

/-- The height is part of the data. -/
theorem slHeight_congr {sl sl' : SkipList} {a : Addr} (h : slData sl' a = slData sl a) :
    slHeight sl' a = slHeight sl a := by
  rw [slHeight, h, slHeight]

/-- So are the member and the score. -/
theorem slPair_congr {sl sl' : SkipList} {a : Addr} (h : slData sl' a = slData sl a) :
    slPair sl' a = slPair sl a := by
  rw [slPair, h, slPair]

/-- The search test looks at the member and the score of a live node. -/
theorem addrBefore_eq {sl : SkipList} {a : Addr} (ha : (sl.mem a).isSome) (member : Bytes)
    (score : Double) : addrBefore sl member score a =
      nodeBefore member score (newNode (slPair sl a).1 (slPair sl a).2 0) := by
  obtain ⟨n, hn⟩ := Option.isSome_iff_exists.mp ha
  simp [addrBefore, slPair, slData, hn, nodeBefore, newNode]

/-- The test for the member of a live node. -/
theorem addrIs_eq {sl : SkipList} {a : Addr} (ha : (sl.mem a).isSome) (member : Bytes) :
    addrIs sl member a = decide (strcmp (slPair sl a).1 member = 0) := by
  obtain ⟨n, hn⟩ := Option.isSome_iff_exists.mp ha
  simp [addrIs, slPair, slData, hn]

/-! ### The fresh list -/

/-- A new list has its header only. -/
theorem repr_slNew : slNew.Repr [] where
  towers := fun i => rfl
  nodup := List.nodup_singleton _
  live := by simp [slNew]
  fresh := by
    intro a ha
    have hne : a ≠ 0 := Nat.ne_of_gt ha
    simp [slNew, hne]
  height_pos := fun _ h => absurd h List.not_mem_nil
  height_le := fun _ h => absurd h List.not_mem_nil
  level_pos := Nat.one_pos
  level_used := Or.inl rfl
  length_eq := rfl

/-! ### Searching -/

section Repr

variable {sl : SkipList} {L : List Addr} (hR : sl.Repr L)

include hR

/-- There are not more nodes than addresses were ever allocated. -/
theorem SkipList.Repr.fuel : L.length ≤ sl.brk := by
  have hsub : L ⊆ List.range sl.brk := by
    intro a ha
    rw [List.mem_range]
    by_contra hge
    have hnone := hR.fresh a (not_lt.mp hge)
    have hlive := hR.live a (List.mem_cons_of_mem _ ha)
    rw [hnone] at hlive
    exact absurd hlive (by decide)
  simpa using (hR.nodup.of_cons.subperm hsub).length_le

/-- The level-0 chain has all nodes. -/
theorem SkipList.Repr.linked : Linked (slForward sl 0) sl.header L := by
  have h := hR.towers 0
  rwa [List.filter_eq_self.mpr fun a ha => by simpa using hR.height_pos a ha] at h

/-- The header has null pointers from `level` on. -/
theorem SkipList.Repr.header_null {i : ℕ} (hi : sl.level ≤ i) :
    slForward sl i sl.header = none := by
  have h := hR.towers i
  rwa [List.filter_eq_nil_iff.mpr fun a ha => by
    have := hR.height_le a ha
    simp only [decide_eq_true_eq]
    omega] at h

/-- **The search** finds a position of the list and records, for every level in use, the
last node before it on that level. -/
theorem slSearch_spec (member : Bytes) (score : Double) (update : ℕ → Addr) :
    ∃ A₁ B₁, L = A₁ ++ B₁ ∧
      (∀ j, j < sl.level → slSearch sl member score update j =
        (A₁.filter fun a => j < slHeight sl a).getLastD sl.header) ∧
      (∀ a, A₁.getLast? = some a → addrBefore sl member score a = true) ∧
      (∀ b, B₁.head? = some b → addrBefore sl member score b = false) :=
  descend_spec hR.towers _ hR.fuel hR.height_le hR.height_pos update

end Repr

/-! ### Deletion -/

/-- The unlinking loop, when the node is linked at `update[j]` exactly on the levels
below `h`. -/
theorem slUnlink_spec {x : Addr} {update : ℕ → Addr} {h : ℕ} (k i : ℕ) (sl : SkipList)
    (hlinked : ∀ j, i ≤ j → j < i + k → (slForward sl j (update j) = some x ↔ j < h))
    (hlive : ∀ j, i ≤ j → j < i + k → (sl.mem (update j)).isSome) (hi : i ≤ h) (hk : h ≤ i + k) :
    (∀ j a, slForward (slUnlink x update k i sl) j a =
      if i ≤ j ∧ j < h ∧ a = update j then slForward sl j x else slForward sl j a) ∧
    SameData sl (slUnlink x update k i sl) ∧
    (slUnlink x update k i sl).header = sl.header ∧ (slUnlink x update k i sl).brk = sl.brk ∧
    (slUnlink x update k i sl).level = sl.level := by
  induction k generalizing i sl with
  | zero =>
    refine ⟨fun j a => ?_, fun _ => rfl, rfl, rfl, rfl⟩
    rw [if_neg (by omega)]
    rfl
  | succ k ih =>
    rw [slUnlink]
    by_cases hih : i < h
    · -- still linked: the node is unlinked here, and the loop goes up
      rw [if_pos ((hlinked i le_rfl (by omega)).mpr hih)]
      have hliveᵢ := hlive i le_rfl (by omega)
      have hset := slForward_setForward sl i (update i) (slForward sl i x) hliveᵢ
      -- the levels above `i` are as before, so the loop goes on as planned
      have habove : ∀ j a, i + 1 ≤ j →
          slForward (slSetForward sl i (update i) (slForward sl i x)) j a = slForward sl j a :=
        fun j a hj => by rw [hset, if_neg (by omega)]
      have hsame : SameData sl (slSetForward sl i (update i) (slForward sl i x)) :=
        fun a => slData_setForward ..
      obtain ⟨h1, h2, h3, h4, h5⟩ := ih (i + 1)
        (slSetForward sl i (update i) (slForward sl i x))
        (fun j hj hjk => by rw [habove j _ hj]; exact hlinked j (by omega) (by omega))
        (fun j hj hjk => by rw [hsame.isSome]; exact hlive j (by omega) (by omega)) hih (by omega)
      refine ⟨fun j a => ?_, fun a => (h2 a).trans (hsame a), h3, h4, h5⟩
      rw [h1]
      by_cases hj : i + 1 ≤ j
      · have hle : i ≤ j := by omega
        simp only [hj, hle, true_and]
        rw [habove j x hj, habove j a hj]
      · rw [if_neg (by tauto), hset]
        by_cases hji : j = i
        · subst hji
          simp [hih]
        · rw [if_neg (by tauto), if_neg (by omega)]
    · -- the first level on which it is not linked, where the loop breaks off
      rw [if_neg (fun hl => hih ((hlinked i le_rfl (by omega)).mp hl))]
      refine ⟨fun j a => ?_, fun _ => rfl, rfl, rfl, rfl⟩
      rw [if_neg (by omega)]

/-- Lowering the level stops at the highest level in use. -/
theorem slLowerLevel_spec {sl : SkipList} {L : List Addr}
    (hT : Towers (slForward sl) (slHeight sl) sl.header L) (l : ℕ) (hl : 0 < l)
    (hle : ∀ a ∈ L, slHeight sl a ≤ l) :
    0 < slLowerLevel sl l ∧ (∀ a ∈ L, slHeight sl a ≤ slLowerLevel sl l) ∧
      (slLowerLevel sl l = 1 ∨ ∃ a ∈ L, slHeight sl a = slLowerLevel sl l) := by
  induction l with
  | zero => exact absurd hl (by decide)
  | succ l ih =>
    cases l with
    | zero => exact ⟨Nat.one_pos, hle, Or.inl rfl⟩
    | succ l =>
      have hlink := hT (l + 1)
      rw [slLowerLevel]
      -- the header points nowhere on the top level exactly when no node is that high
      cases hf : L.filter (fun a => l + 1 < slHeight sl a) with
      | nil =>
        rw [hf, linked_nil] at hlink
        rw [if_pos hlink]
        refine ih (Nat.succ_pos l) fun a ha => ?_
        have hnot := List.filter_eq_nil_iff.mp hf a ha
        simpa using hnot
      | cons a as =>
        rw [hf, linked_cons] at hlink
        have ha : a ∈ L.filter (fun a => l + 1 < slHeight sl a) := hf ▸ List.mem_cons_self
        rw [List.mem_filter, decide_eq_true_eq] at ha
        rw [if_neg (by rw [hlink.1]; exact Option.some_ne_none a)]
        exact ⟨Nat.succ_pos _, hle, Or.inr ⟨a, ha.1, le_antisymm (hle a ha.1) ha.2⟩⟩

/-- The node behind a position is linked at `update[j]` exactly on the levels below its
height. -/
theorem linked_iff_height {sl : SkipList} {A₁ B₂ : List Addr} {x : Addr}
    (hR : sl.Repr (A₁ ++ x :: B₂)) {update : ℕ → Addr} {j : ℕ}
    (hupd : update j = (A₁.filter fun a => j < slHeight sl a).getLastD sl.header) :
    slForward sl j (update j) = some x ↔ j < slHeight sl x := by
  -- what follows `update[j]` on level `j` is the part of `x :: B₂` that is on the level
  have hlink := hR.towers j
  rw [List.filter_append] at hlink
  have htail := hlink.tail
  rw [← hupd] at htail
  by_cases hjx : j < slHeight sl x
  · rw [List.filter_cons_of_pos (by simpa using hjx)] at htail
    exact ⟨fun _ => hjx, fun _ => htail.1⟩
  · rw [List.filter_cons_of_neg (by simpa using hjx)] at htail
    have hxB : x ∉ B₂ := (List.nodup_cons.mp
      (hR.nodup.sublist (List.sublist_append_right (sl.header :: A₁) (x :: B₂)))).1
    refine ⟨fun h => absurd ?_ hxB, fun h => absurd h hjx⟩
    -- were `x` linked there, it would be one of the nodes of `B₂`
    cases hB : B₂.filter (fun a => j < slHeight sl a) with
    | nil =>
      rw [hB, linked_nil, h] at htail
      exact absurd htail (Option.some_ne_none x)
    | cons b bs =>
      rw [hB, linked_cons, h] at htail
      have hb : b ∈ B₂.filter (fun a => j < slHeight sl a) := hB ▸ List.mem_cons_self
      rw [Option.some.inj htail.1]
      exact List.mem_of_mem_filter hb

/-- `sl'` is `sl` without the node `x`, which was linked behind `update[j]` on the levels
below its height. The level is still the old one. -/
structure Removed (sl sl' : SkipList) (x : Addr) (update : ℕ → Addr) : Prop where
  freed : sl'.mem x = none
  data_old : ∀ a, a ≠ x → slData sl' a = slData sl a
  forward_pred : ∀ j, j < slHeight sl x → update j ≠ x →
    slForward sl' j (update j) = slForward sl j x
  forward_old : ∀ j a, a ≠ x → (j < slHeight sl x → a ≠ update j) →
    slForward sl' j a = slForward sl j a
  header_eq : sl'.header = sl.header
  brk_eq : sl'.brk = sl.brk
  level_eq : sl'.level = sl.level
  length_eq : sl'.length = sl.length - 1

/-- The node `x` may be taken out of the list: the rest of the list does not contain it, and
is part of what was there. -/
theorem SkipList.Repr.without {sl : SkipList} {A₁ B₂ : List Addr} {x : Addr}
    (hR : sl.Repr (A₁ ++ x :: B₂)) :
    x ∉ sl.header :: (A₁ ++ B₂) ∧ (A₁ ++ B₂).Sublist (A₁ ++ x :: B₂) := by
  have hmiddle : (sl.header :: (A₁ ++ x :: B₂)).Perm (x :: sl.header :: (A₁ ++ B₂)) := by
    rw [← List.cons_append, ← List.cons_append]
    exact List.perm_middle
  exact ⟨(List.nodup_cons.mp (hmiddle.nodup_iff.mp hR.nodup)).1,
    (List.sublist_cons_self x B₂).append_left A₁⟩

/-- The unlinking loop and `delete x` remove the node behind the position of the search. -/
theorem slDelete_removed {sl : SkipList} {A₁ B₂ : List Addr} {x : Addr}
    (hR : sl.Repr (A₁ ++ x :: B₂)) {update : ℕ → Addr}
    (hupd : ∀ j, j < sl.level → update j =
      (A₁.filter fun a => j < slHeight sl a).getLastD sl.header)
    {sl' : SkipList} (hsl' : sl' = slUnlink x update sl.level 0 sl) :
    Removed sl { sl' with mem := Function.update sl'.mem x none, length := sl.length - 1 } x
      update := by
  have hx : x ∈ A₁ ++ x :: B₂ := List.mem_append_right A₁ List.mem_cons_self
  have hupdlive : ∀ j, j < sl.level → (sl.mem (update j)).isSome := by
    intro j hj
    rw [hupd j hj]
    refine hR.live _ (List.cons_subset_cons _ (List.subset_append_left A₁ _) ?_)
    exact getLastD_filter_mem ..
  obtain ⟨hfwd, hdata, hheader, hbrk, hlevel⟩ := slUnlink_spec sl.level 0 sl
    (fun j _ hj => linked_iff_height hR (hupd j (by omega)))
    (fun j _ hj => hupdlive j (by omega)) (Nat.zero_le _) (by simpa using hR.height_le x hx)
  rw [← hsl'] at hfwd hdata hheader hbrk hlevel
  -- freeing `x` is seen at `x` only
  have hfwd' : ∀ j a, a ≠ x → slForward { sl' with
      mem := Function.update sl'.mem x none, length := sl.length - 1 } j a =
      if j < slHeight sl x ∧ a = update j then slForward sl j x else slForward sl j a := by
    intro j a ha
    have hkeep := hfwd j a
    simp only [Nat.zero_le, true_and] at hkeep
    rw [← hkeep]
    simp [slForward, ha]
  refine ⟨Function.update_self .., fun a ha => ?_, fun j hj hne => ?_, fun j a ha hlast => ?_,
    hheader, hbrk, hlevel, rfl⟩
  · rw [← hdata a]
    simp [slData, ha]
  · rw [hfwd' j _ hne, if_pos ⟨hj, rfl⟩]
  · rw [hfwd' j a ha, if_neg fun h => hlast h.1 h.2]

/-- **Deletion keeps the structure**: once the level is lowered, what is left represents the
other nodes. -/
theorem Removed.repr {sl sl' : SkipList} {A₁ B₂ : List Addr} {x : Addr} {update : ℕ → Addr}
    (h : Removed sl sl' x update) (hR : sl.Repr (A₁ ++ x :: B₂))
    (hupd : ∀ j, j < sl.level → update j =
      (A₁.filter fun a => j < slHeight sl a).getLastD sl.header) :
    ({ sl' with level := slLowerLevel sl' sl'.level } : SkipList).Repr (A₁ ++ B₂) := by
  -- the other nodes, none of which is `x`
  obtain ⟨hxA, hsubL⟩ := hR.without
  have hsub : sl.header :: (A₁ ++ B₂) ⊆ sl.header :: (A₁ ++ x :: B₂) :=
    List.cons_subset_cons _ hsubL.subset
  have hne : ∀ a ∈ sl.header :: (A₁ ++ B₂), a ≠ x := fun a ha hax => hxA (hax ▸ ha)
  -- the levels of `x` are levels that the search went through
  have hlow : ∀ j, j < slHeight sl x → j < sl.level := fun j hj =>
    hj.trans_le (hR.height_le x (List.mem_append_right A₁ List.mem_cons_self))
  have hheight : ∀ a ∈ A₁ ++ B₂, slHeight sl' a = slHeight sl a := fun a ha =>
    slHeight_congr (h.data_old a (hne a (List.mem_cons_of_mem _ ha)))
  -- the chains, on which lowering the level depends
  have htowers : Towers (slForward sl') (slHeight sl') sl'.header (A₁ ++ B₂) := by
    rw [h.header_eq]
    -- on each level of `x`, the last node before it takes over its pointer
    refine hR.towers.delete hR.nodup hheight (fun j hj => ?_) fun j a ha hlast => ?_
    · have hmem : update j ∈ sl.header :: (A₁ ++ B₂) := by
        rw [hupd j (hlow j hj)]
        exact List.cons_subset_cons _ (List.subset_append_left A₁ B₂) (getLastD_filter_mem ..)
      rw [← hupd j (hlow j hj), h.forward_pred j hj (hne _ hmem)]
    · refine h.forward_old j a (hne a ha) fun hj => ?_
      rw [hupd j (hlow j hj)]
      exact hlast hj
  have hheight_le : ∀ a ∈ A₁ ++ B₂, slHeight sl' a ≤ sl'.level := by
    intro a ha
    rw [hheight a ha, h.level_eq]
    exact hR.height_le a (hsubL.subset ha)
  -- the loop stops at the highest level in use
  obtain ⟨hpos, hle, hused⟩ := slLowerLevel_spec htowers sl'.level
    (by rw [h.level_eq]; exact hR.level_pos) hheight_le
  refine ⟨htowers, ?_, fun a ha => ?_, fun a ha => ?_, fun a ha => ?_, hle, hpos, hused, ?_⟩
  · show (sl'.header :: (A₁ ++ B₂)).Nodup
    rw [h.header_eq]
    exact hR.nodup.sublist (hsubL.cons_cons _)
  · have ha' : a ∈ sl.header :: (A₁ ++ B₂) := h.header_eq ▸ ha
    show (sl'.mem a).isSome
    rw [← slData_isSome, h.data_old a (hne a ha'), slData_isSome]
    exact hR.live a (hsub ha')
  · -- beyond `brk` there was nothing, and `x` is freed
    show sl'.mem a = none
    by_cases hax : a = x
    · rw [hax]
      exact h.freed
    · rw [← Option.not_isSome_iff_eq_none, ← slData_isSome, h.data_old a hax, slData_isSome,
        hR.fresh a (h.brk_eq ▸ ha)]
      decide
  · show 0 < slHeight sl' a
    rw [hheight a ha]
    exact hR.height_pos a (hsubL.subset ha)
  · have hlen := hR.length_eq
    show sl'.length = (A₁ ++ B₂).length
    rw [h.length_eq]
    simp only [List.length_append, List.length_cons] at hlen ⊢
    omega

/-- **`sl_delete`** looks at the node behind the position of the search: it takes it out if
its member is the given one, and does nothing otherwise. -/
theorem slDelete_spec {sl : SkipList} {L : List Addr} (hR : sl.Repr L) (member : Bytes)
    (score : Double) :
    ∃ A₁ B₁, L = A₁ ++ B₁ ∧
      (∀ a, A₁.getLast? = some a → addrBefore sl member score a = true) ∧
      (∀ b, B₁.head? = some b → addrBefore sl member score b = false) ∧
      (((∀ b, B₁.head? = some b → addrIs sl member b = false) ∧
          slDelete sl member score = (sl, false)) ∨
        ∃ x B₂, B₁ = x :: B₂ ∧ addrIs sl member x = true ∧
          (slDelete sl member score).2 = true ∧
          (slDelete sl member score).1.Repr (A₁ ++ B₂) ∧
          (slDelete sl member score).1.header = sl.header ∧
          ∀ a, a ≠ x → slData (slDelete sl member score).1 a = slData sl a) := by
  obtain ⟨A₁, B₁, rfl, hupd, hend, hhead⟩ := slSearch_spec hR member score fun _ => 0
  refine ⟨A₁, B₁, rfl, hend, hhead, ?_⟩
  -- `update[0]` is the last node before the position, or the header
  have hzero : Linked (slForward sl 0) (slSearch sl member score (fun _ => 0) 0) B₁ := by
    have hall : A₁.filter (fun a => 0 < slHeight sl a) = A₁ :=
      List.filter_eq_self.mpr fun a ha => by
        simpa using hR.height_pos a (List.mem_append_left B₁ ha)
    rw [hupd 0 hR.level_pos, hall]
    exact hR.linked.tail
  rw [slDelete]
  cases B₁ with
  | nil =>
    rw [linked_nil.mp hzero]
    exact Or.inl ⟨fun b hb => absurd hb (by simp), rfl⟩
  | cons x B₂ =>
    rw [hzero.1]
    by_cases hx : addrIs sl member x = true
    · have hremoved := slDelete_removed hR hupd rfl
      simp only [hx, if_true]
      exact Or.inr ⟨x, B₂, rfl, hx, trivial, hremoved.repr hR hupd, hremoved.header_eq,
        hremoved.data_old⟩
    · simp only [hx]
      -- another member, and the list stays as it is
      exact Or.inl ⟨fun b hb => by
        obtain rfl := Option.some.inj hb
        simpa using hx, rfl⟩

/-! ### Insertion -/

/-- The linking loop: on each level below `k`, the new node takes over the pointer of
`update[j]`, which then points to the new node. -/
theorem slLink_spec (sl : SkipList) (n : Addr) (update : ℕ → Addr) (k : ℕ)
    (hn : (sl.mem n).isSome) (hlive : ∀ j, j < k → (sl.mem (update j)).isSome)
    (hne : ∀ j, j < k → update j ≠ n) :
    (∀ j a, slForward (slLink n update sl k) j a =
      if j < k then
        if a = n then slForward sl j (update j)
        else if a = update j then some n else slForward sl j a
      else slForward sl j a) ∧
    SameData sl (slLink n update sl k) ∧
    (slLink n update sl k).header = sl.header ∧ (slLink n update sl k).brk = sl.brk ∧
    (slLink n update sl k).level = sl.level ∧ (slLink n update sl k).length = sl.length := by
  induction k with
  | zero =>
    refine ⟨fun j a => ?_, fun _ => rfl, rfl, rfl, rfl, rfl⟩
    rw [if_neg (Nat.not_lt_zero j)]
    rfl
  | succ k ih =>
    obtain ⟨hfwd, hdata, h3, h4, h5, h6⟩ :=
      ih (fun j hj => hlive j (by omega)) (fun j hj => hne j (by omega))
    have hstep : slLink n update sl (k + 1) =
        slSetForward (slSetForward (slLink n update sl k) k n
          (slForward (slLink n update sl k) k (update k))) k (update k) (some n) := by
      rw [slLink, List.range_succ, List.foldl_append]
      rfl
    rw [hstep]
    -- the writes on level `k` do not touch the levels below
    have hsame : SameData (slLink n update sl k) (slSetForward (slLink n update sl k) k n
        (slForward (slLink n update sl k) k (update k))) := fun a => slData_setForward ..
    refine ⟨fun j a => ?_, fun a => ?_, h3, h4, h5, h6⟩
    · rw [slForward_setForward _ _ _ _
          (by rw [hsame.isSome, hdata.isSome]; exact hlive k (by omega)),
        slForward_setForward _ _ _ _ (by rw [hdata.isSome]; exact hn)]
      by_cases hjk : j = k
      · subst hjk
        have hnk := hne j (by omega)
        -- level `j` is as it was when its own two writes come
        have hold : ∀ a, slForward (slLink n update sl j) j a = slForward sl j a := fun a => by
          rw [hfwd, if_neg (lt_irrefl j)]
        rw [hold, hold, if_pos (Nat.lt_succ_self j)]
        by_cases han : a = n
        · subst han
          simp [hnk.symm]
        · simp [han]
      · rw [if_neg (by tauto), if_neg (by tauto), hfwd]
        by_cases hj : j < k
        · rw [if_pos hj, if_pos (Nat.lt_succ_of_lt hj)]
        · have hj' : ¬j < k + 1 := by omega
          rw [if_neg hj, if_neg hj']
    · rw [slData_setForward, slData_setForward, hdata]

/-- The array `update[]` when the linking loop starts. -/
def slRecorded (sl : SkipList) (lvl : ℕ) (update : ℕ → Addr) : ℕ → Addr :=
  if sl.level < lvl then slExtend sl lvl update else update

/-- The list when the linking loop starts: the level is raised and the node allocated. -/
def slAlloc (sl : SkipList) (member : Bytes) (score : Double) (lvl : ℕ) : SkipList :=
  { sl with
    mem := Function.update sl.mem sl.brk (some (newNode member score lvl))
    brk := sl.brk + 1
    level := max sl.level lvl }

/-- The placement of a node, in three steps: allocate, record the levels, and link. -/
theorem slPlace_eq (sl : SkipList) (member : Bytes) (score : Double) (lvl : ℕ)
    (update : ℕ → Addr) : slPlace sl member score lvl update =
      { slLink sl.brk (slRecorded sl lvl update) (slAlloc sl member score lvl) lvl with
        length := (slLink sl.brk (slRecorded sl lvl update)
          (slAlloc sl member score lvl) lvl).length + 1 } := by
  rw [slPlace, slRecorded, slAlloc]
  by_cases hlvl : sl.level < lvl
  · simp only [hlvl, if_true, max_eq_right hlvl.le]
  · simp only [hlvl, if_false, max_eq_left (not_lt.mp hlvl)]

/-- A new node has the data it was given. -/
theorem slData_slAlloc (sl : SkipList) (member : Bytes) (score : Double) (lvl : ℕ) (a : Addr) :
    slData (slAlloc sl member score lvl) a =
      if a = sl.brk then some (member, score, lvl) else slData sl a := by
  by_cases ha : a = sl.brk <;> simp [slData, slAlloc, newNode, ha]

/-- The pointers of the other nodes are as they were. -/
theorem slForward_slAlloc (sl : SkipList) (member : Bytes) (score : Double) (lvl j : ℕ)
    {a : Addr} (ha : a ≠ sl.brk) :
    slForward (slAlloc sl member score lvl) j a = slForward sl j a := by
  simp [slForward, slAlloc, ha]

/-- What is recorded on each level below `lvl` is the last node of `A₁` there, or the
header. Above the old level it is the header, and no node of `A₁` is up there. -/
theorem slRecorded_eq {sl : SkipList} {A₁ B₁ : List Addr} (hR : sl.Repr (A₁ ++ B₁)) {lvl : ℕ}
    {update : ℕ → Addr} (hupd : ∀ j, j < sl.level → update j =
      (A₁.filter fun a => j < slHeight sl a).getLastD sl.header) {j : ℕ} (hj : j < lvl) :
    slRecorded sl lvl update j =
      (A₁.filter fun a => j < slHeight sl a).getLastD sl.header := by
  by_cases hjl : j < sl.level
  · rw [← hupd j hjl, slRecorded]
    split
    · rw [slExtend, if_neg (by omega)]
    · rfl
  · have hnil : A₁.filter (fun a => j < slHeight sl a) = [] :=
      List.filter_eq_nil_iff.mpr fun a ha => by
        have := hR.height_le a (List.mem_append_left B₁ ha)
        simp only [decide_eq_true_eq]
        omega
    rw [hnil, slRecorded, if_pos (by omega), slExtend, if_pos (by omega)]
    rfl

/-- `sl'` is `sl` with a new node at `sl.brk`, which is linked behind `update[j]` on the
levels below its height. -/
structure Inserted (sl sl' : SkipList) (member : Bytes) (score : Double) (lvl : ℕ)
    (update : ℕ → Addr) : Prop where
  data_new : slData sl' sl.brk = some (member, score, lvl)
  data_old : ∀ a, a ≠ sl.brk → slData sl' a = slData sl a
  forward_new : ∀ j, j < lvl → slForward sl' j sl.brk = slForward sl j (update j)
  forward_pred : ∀ j, j < lvl → slForward sl' j (update j) = some sl.brk
  forward_old : ∀ j a, a ≠ sl.brk → (j < lvl → a ≠ update j) →
    slForward sl' j a = slForward sl j a
  header_eq : sl'.header = sl.header
  brk_eq : sl'.brk = sl.brk + 1
  level_eq : sl'.level = max sl.level lvl
  length_eq : sl'.length = sl.length + 1

/-- The linking loop places the new node, when what is recorded are old nodes. -/
theorem slPlace_inserted {sl : SkipList} (member : Bytes) (score : Double) {lvl : ℕ}
    {update : ℕ → Addr} (hlive : ∀ j, j < lvl → (sl.mem (slRecorded sl lvl update j)).isSome)
    (hold : ∀ j, j < lvl → slRecorded sl lvl update j ≠ sl.brk) :
    Inserted sl (slPlace sl member score lvl update) member score lvl
      (slRecorded sl lvl update) := by
  have halloc : ((slAlloc sl member score lvl).mem sl.brk).isSome := by
    rw [← slData_isSome, slData_slAlloc, if_pos rfl]
    rfl
  obtain ⟨hfwd, hdata, hheader, hbrk, hlevel, hlength⟩ :=
    slLink_spec (slAlloc sl member score lvl) sl.brk (slRecorded sl lvl update) lvl halloc
      (fun j hj => by
        rw [← slData_isSome, slData_slAlloc, if_neg (hold j hj), slData_isSome]
        exact hlive j hj)
      hold
  rw [slPlace_eq]
  -- `length` is the only field written behind the loop, and no pointer depends on it
  refine ⟨?_, fun a ha => ?_, fun j hj => ?_, fun j hj => ?_, fun j a ha hlast => ?_, hheader,
    hbrk, hlevel, congrArg (· + 1) hlength⟩
  · -- the loop writes pointers only
    exact (hdata sl.brk).trans (by rw [slData_slAlloc, if_pos rfl])
  · exact (hdata a).trans (by rw [slData_slAlloc, if_neg ha])
  · refine (hfwd j sl.brk).trans ?_
    rw [if_pos hj, if_pos rfl, slForward_slAlloc _ _ _ _ _ (hold j hj)]
  · refine (hfwd j _).trans ?_
    rw [if_pos hj, if_neg (hold j hj), if_pos rfl]
  · refine (hfwd j a).trans ?_
    rw [slForward_slAlloc _ _ _ _ _ ha]
    -- a node that is not the last of the level keeps its pointer
    by_cases hj : j < lvl
    · rw [if_pos hj, if_neg ha, if_neg (hlast hj)]
    · rw [if_neg hj]

/-- **Insertion keeps the structure**: what the new list represents has the new node at the
recorded position. -/
theorem Inserted.repr {sl sl' : SkipList} {A₁ B₁ : List Addr} {member : Bytes} {score : Double}
    {lvl : ℕ} {update : ℕ → Addr} (h : Inserted sl sl' member score lvl update)
    (hR : sl.Repr (A₁ ++ B₁)) (hlvl : 0 < lvl) (hfresh : sl.brk ∉ sl.header :: (A₁ ++ B₁))
    (hupd : ∀ j, j < lvl → update j =
      (A₁.filter fun a => j < slHeight sl a).getLastD sl.header) :
    sl'.Repr (A₁ ++ sl.brk :: B₁) := by
  have hold : ∀ a ∈ sl.header :: (A₁ ++ B₁), a ≠ sl.brk := fun a ha hab => hfresh (hab ▸ ha)
  have hheightn : slHeight sl' sl.brk = lvl := by rw [slHeight, h.data_new]; rfl
  have hheight : ∀ a ∈ A₁ ++ B₁, slHeight sl' a = slHeight sl a := fun a ha =>
    slHeight_congr (h.data_old a (hold a (List.mem_cons_of_mem _ ha)))
  -- the nodes of the new list, the new one in front
  have hmiddle : (sl.header :: (A₁ ++ sl.brk :: B₁)).Perm (sl.brk :: sl.header :: (A₁ ++ B₁)) := by
    rw [← List.cons_append, ← List.cons_append]
    exact List.perm_middle
  have hcases : ∀ a ∈ A₁ ++ sl.brk :: B₁, a = sl.brk ∨ a ∈ A₁ ++ B₁ := by
    intro a ha
    simp only [List.mem_append, List.mem_cons] at ha ⊢
    tauto
  constructor
  case towers =>
    rw [h.header_eq]
    -- on each level of the new node, it takes over the pointer of the last node before it
    refine hR.towers.insert hR.nodup hfresh hheight (fun j hj => ?_) fun j a ha hlast => ?_
    · rw [hheightn] at hj
      rw [← hupd j hj]
      exact ⟨h.forward_new j hj, h.forward_pred j hj⟩
    · rw [hheightn] at hlast
      refine h.forward_old j a (hold a ha) fun hj => ?_
      rw [hupd j hj]
      exact hlast hj
  case nodup =>
    rw [h.header_eq]
    exact hmiddle.nodup_iff.mpr (List.nodup_cons.mpr ⟨hfresh, hR.nodup⟩)
  case live =>
    intro a ha
    rw [h.header_eq, hmiddle.mem_iff, List.mem_cons] at ha
    rw [← slData_isSome]
    rcases ha with rfl | ha
    · rw [h.data_new]
      rfl
    · rw [h.data_old a (hold a ha), slData_isSome]
      exact hR.live a ha
  case fresh =>
    intro a ha
    have hlt : sl.brk < a := by
      rw [h.brk_eq] at ha
      exact ha
    -- `brk` went up by one, to stay beyond every node
    rw [← Option.not_isSome_iff_eq_none, ← slData_isSome, h.data_old a hlt.ne', slData_isSome,
      hR.fresh a hlt.le]
    decide
  case height_pos =>
    intro a ha
    rcases hcases a ha with rfl | ha
    · rw [hheightn]
      exact hlvl
    · rw [hheight a ha]
      exact hR.height_pos a ha
  case height_le =>
    intro a ha
    rw [h.level_eq]
    rcases hcases a ha with rfl | ha
    · rw [hheightn]
      exact le_max_right _ _
    · rw [hheight a ha]
      exact (hR.height_le a ha).trans (le_max_left _ _)
  case level_pos =>
    rw [h.level_eq]
    exact hlvl.trans_le (le_max_right _ _)
  case level_used =>
    rw [h.level_eq]
    by_cases hgt : sl.level < lvl
    · -- the new node is the one that uses the level
      refine Or.inr ⟨sl.brk, List.mem_append_right _ List.mem_cons_self, ?_⟩
      rw [hheightn, max_eq_right hgt.le]
    · -- the level is as before, and the node that used it is still there
      rw [max_eq_left (not_lt.mp hgt)]
      refine hR.level_used.imp_right fun ⟨a, ha, hla⟩ => ⟨a, ?_, (hheight a ha).trans hla⟩
      simp only [List.mem_append, List.mem_cons] at ha ⊢
      tauto
  case length_eq =>
    have hlen := hR.length_eq
    rw [h.length_eq]
    simp only [List.length_append, List.length_cons] at hlen ⊢
    omega

/-- **The end of `sl_insert`** puts a new node at the position that `update[]` records. -/
theorem slPlace_spec {sl : SkipList} {A₁ B₁ : List Addr} (hR : sl.Repr (A₁ ++ B₁))
    (member : Bytes) (score : Double) {lvl : ℕ} (hlvl : 0 < lvl) {update : ℕ → Addr}
    (hupd : ∀ j, j < sl.level → update j =
      (A₁.filter fun a => j < slHeight sl a).getLastD sl.header) :
    (slPlace sl member score lvl update).Repr (A₁ ++ sl.brk :: B₁) ∧
      slData (slPlace sl member score lvl update) sl.brk = some (member, score, lvl) ∧
      (slPlace sl member score lvl update).header = sl.header ∧
      ∀ a ∈ sl.header :: (A₁ ++ B₁),
        slData (slPlace sl member score lvl update) a = slData sl a := by
  -- the new address is not that of a live node
  have hfresh : sl.brk ∉ sl.header :: (A₁ ++ B₁) := by
    intro ha
    have hlive := hR.live _ ha
    rw [hR.fresh _ le_rfl] at hlive
    exact absurd hlive (by decide)
  -- `update[]` holds nodes of the list, above its level the header
  have hrecorded : ∀ j, j < lvl → slRecorded sl lvl update j ∈ sl.header :: (A₁ ++ B₁) := by
    intro j hj
    rw [slRecorded_eq hR hupd hj]
    exact List.cons_subset_cons _ (List.subset_append_left A₁ B₁) (getLastD_filter_mem ..)
  have hinserted := slPlace_inserted member score (fun j hj => hR.live _ (hrecorded j hj))
    fun j hj hb => hfresh (hb ▸ hrecorded j hj)
  exact ⟨hinserted.repr hR hlvl hfresh fun j hj => slRecorded_eq hR hupd hj, hinserted.data_new,
    hinserted.header_eq, fun a ha => hinserted.data_old a fun hb => hfresh (hb ▸ ha)⟩

end Minired
