import Minired.SkipListInv
import Minired.Lib.KeyedList
import Minired.Lib.Transducer

/-!
# The order of the skip list

`SkipList.Holds sl C` forgets the addresses: `C` is the list of members and scores along
the level-0 chain. The specifications of `Minired.SkipListInv` become statements about
positions of `C` (`slDelete_holds`, `slInsert_holds`), still without any order.

With C string members and scores that are numbers, the test of the search compares the
keys `pairKey`, and `Ordered C` says that `C` is strictly sorted by them and has every
member once. On an ordered list the position of a search is unique, so a deletion by the
current score removes its member (`slDelete_ordered`), a deletion of an absent member
does nothing (`slDelete_absent`), and an insertion sets or updates (`slInsert_ordered`).

`skipList_invariant` puts this together over whole runs, for every outcome of the coin
flips.
-/

namespace Minired

open Chain Tower KeyedList Transducer

/-! ### The content, in chain order -/

/-- The members and scores along the level-0 chain. -/
def SkipList.Holds (sl : SkipList) (C : List (Bytes × Double)) : Prop :=
  ∃ L, sl.Repr L ∧ L.map (slPair sl) = C

/-- The test of the search, on a member with its score. -/
def pairBefore (member : Bytes) (score : Double) (c : Bytes × Double) : Bool :=
  nodeBefore member score (newNode c.1 c.2 0)

/-- `C₁ ++ C₂` is cut where the search for the member and score stops. -/
structure Position (member : Bytes) (score : Double) (C₁ C₂ : List (Bytes × Double)) : Prop where
  before : ∀ c, C₁.getLast? = some c → pairBefore member score c = true
  behind : ∀ c, C₂.head? = some c → pairBefore member score c = false

/-- A new list holds nothing. -/
theorem holds_slNew : slNew.Holds [] := ⟨[], repr_slNew, rfl⟩

/-- A position of the nodes is a position of the content. -/
theorem SkipList.Repr.position {sl : SkipList} {A₁ B₁ : List Addr} (hR : sl.Repr (A₁ ++ B₁))
    {member : Bytes} {score : Double}
    (hend : ∀ a, A₁.getLast? = some a → addrBefore sl member score a = true)
    (hhead : ∀ b, B₁.head? = some b → addrBefore sl member score b = false) :
    Position member score (A₁.map (slPair sl)) (B₁.map (slPair sl)) where
  before := by
    intro c hc
    rw [List.getLast?_map, Option.map_eq_some_iff] at hc
    obtain ⟨a, ha, rfl⟩ := hc
    have hmem : a ∈ A₁ ++ B₁ := List.mem_append_left B₁ (List.mem_of_getLast? ha)
    have hlive := hR.live a (List.mem_cons_of_mem _ hmem)
    exact (addrBefore_eq hlive member score).symm.trans (hend a ha)
  behind := by
    intro c hc
    rw [List.head?_map, Option.map_eq_some_iff] at hc
    obtain ⟨b, hb, rfl⟩ := hc
    have hmem : b ∈ A₁ ++ B₁ := List.mem_append_right A₁ (List.mem_of_head? hb)
    have hlive := hR.live b (List.mem_cons_of_mem _ hmem)
    exact (addrBefore_eq hlive member score).symm.trans (hhead b hb)

/-- The nodes that keep their data keep their pairs. -/
theorem map_slPair_congr {sl sl' : SkipList} {L : List Addr}
    (h : ∀ a ∈ L, slData sl' a = slData sl a) : L.map (slPair sl') = L.map (slPair sl) :=
  List.map_congr_left fun a ha => slPair_congr (h a ha)

/-- **`sl_delete`**, on the content: the pair behind the position goes if its member is the
given one as a C string. -/
theorem slDelete_holds {sl : SkipList} {C : List (Bytes × Double)} (hC : sl.Holds C)
    (member : Bytes) (score : Double) :
    ∃ C₁ C₂, C = C₁ ++ C₂ ∧ Position member score C₁ C₂ ∧
      (((∀ c, C₂.head? = some c → strcmp c.1 member ≠ 0) ∧
          slDelete sl member score = (sl, false)) ∨
        ∃ c C₃, C₂ = c :: C₃ ∧ strcmp c.1 member = 0 ∧
          (slDelete sl member score).2 = true ∧
          (slDelete sl member score).1.Holds (C₁ ++ C₃)) := by
  obtain ⟨L, hR, rfl⟩ := hC
  obtain ⟨A₁, B₁, rfl, hend, hhead, hcase⟩ := slDelete_spec hR member score
  have hlive : ∀ a ∈ A₁ ++ B₁, (sl.mem a).isSome := fun a ha =>
    hR.live a (List.mem_cons_of_mem _ ha)
  refine ⟨_, _, List.map_append, hR.position hend hhead, ?_⟩
  rcases hcase with ⟨hmiss, hsame⟩ | ⟨x, B₂, rfl, hx, hfound, hR', -, hkeep⟩
  · -- the first pair behind the position is that of the first node there
    refine Or.inl ⟨fun c hc => ?_, hsame⟩
    rw [List.head?_map, Option.map_eq_some_iff] at hc
    obtain ⟨b, hb, rfl⟩ := hc
    have hmem : b ∈ A₁ ++ B₁ := List.mem_append_right A₁ (List.mem_of_head? hb)
    have hb' := hmiss b hb
    rw [addrIs_eq (hlive b hmem)] at hb'
    simpa using hb'
  · have hxmem : x ∈ A₁ ++ x :: B₂ := List.mem_append_right A₁ List.mem_cons_self
    rw [addrIs_eq (hlive x hxmem), decide_eq_true_eq] at hx
    refine Or.inr ⟨_, _, List.map_cons, hx, hfound, A₁ ++ B₂, hR', ?_⟩
    rw [map_slPair_congr fun a ha => hkeep a ?_, List.map_append]
    -- the deleted node is not among the others
    have hnd := hR.nodup.of_cons
    rw [List.perm_middle.nodup_iff, List.nodup_cons] at hnd
    rintro rfl
    exact hnd.1 ha

/-- **The end of `sl_insert`**, on the content: the pair goes to the position of the search. -/
theorem slPlace_holds {sl : SkipList} {C : List (Bytes × Double)} (hC : sl.Holds C)
    (member : Bytes) (score : Double) {lvl : ℕ} (hlvl : 0 < lvl) (update : ℕ → Addr) :
    ∃ C₁ C₂, C = C₁ ++ C₂ ∧ Position member score C₁ C₂ ∧
      (slPlace sl member score lvl (slSearch sl member score update)).Holds
        (C₁ ++ (member, score) :: C₂) := by
  obtain ⟨L, hR, rfl⟩ := hC
  obtain ⟨A₁, B₁, rfl, hupd, hend, hhead⟩ := slSearch_spec hR member score update
  obtain ⟨hR', hnew, -, hkeep⟩ := slPlace_spec hR member score hlvl hupd
  refine ⟨_, _, List.map_append, hR.position hend hhead, A₁ ++ sl.brk :: B₁, hR', ?_⟩
  -- the old nodes keep their pairs, and the new one has the given pair
  have hA := map_slPair_congr fun a ha =>
    hkeep a (List.mem_cons_of_mem _ (List.mem_append_left B₁ ha))
  have hB := map_slPair_congr fun a ha =>
    hkeep a (List.mem_cons_of_mem _ (List.mem_append_right A₁ ha))
  rw [List.map_append, List.map_cons, hA, hB, slPair, hnew]
  rfl

/-- The scan of the level-0 chain finds the first pair whose member is the given one. -/
theorem firstFrom_holds {sl : SkipList} {C : List (Bytes × Double)} (hC : sl.Holds C)
    (member : Bytes) :
    ((firstFrom (slForward sl 0) (addrIs sl member) sl.brk sl.header).bind sl.mem).map
        (fun n => (n.member, n.score)) =
      C.find? fun c => decide (strcmp c.1 member = 0) := by
  obtain ⟨L, hR, rfl⟩ := hC
  have hlive : ∀ a ∈ L, (sl.mem a).isSome := fun a ha => hR.live a (List.mem_cons_of_mem _ ha)
  rw [firstFrom_eq hR.linked _ hR.fuel, List.find?_map]
  -- on live nodes the test at the address is the test on the pair
  have hfind : L.find? (addrIs sl member) =
      L.find? ((fun c : Bytes × Double => decide (strcmp c.1 member = 0)) ∘ slPair sl) :=
    List.find?_congr fun a ha => addrIs_eq (hlive a ha) member
  rw [← hfind]
  cases hf : L.find? (addrIs sl member) with
  | none => rfl
  | some a =>
    obtain ⟨n, hn⟩ := Option.isSome_iff_exists.mp (hlive a (List.mem_of_find?_eq_some hf))
    simp [hn, slPair, slData]

/-- **`sl_insert`**, on the content: a pair of the same member is deleted first, by its own
score; then the pair goes to the position of the search. -/
theorem slInsert_holds {sl : SkipList} {C : List (Bytes × Double)} (hC : sl.Holds C)
    (member : Bytes) (score : Double) {lvl : ℕ} (hlvl : 0 < lvl) (C' : List (Bytes × Double))
    (hC' : match C.find? fun c => decide (strcmp c.1 member = 0) with
      | some c => (slDelete sl member c.2).1.Holds C'
      | none => C' = C) :
    ∃ C₁ C₂, C' = C₁ ++ C₂ ∧ Position member score C₁ C₂ ∧
      (slInsert sl member score lvl).Holds (C₁ ++ (member, score) :: C₂) := by
  rw [← firstFrom_holds hC] at hC'
  rw [slInsert]
  cases hf : (firstFrom (slForward sl 0) (addrIs sl member) sl.brk sl.header).bind sl.mem with
  | none =>
    rw [hf] at hC'
    obtain rfl := hC'
    exact slPlace_holds hC member score hlvl _
  | some n =>
    rw [hf] at hC'
    exact slPlace_holds hC' member score hlvl _

/-! ### Order -/

/-- The key the skip list is ordered by: the score, and the C string among equal scores. -/
def pairKey (c : Bytes × Double) : Int ×ₗ List ℕ := toLex (c.2.key, cstrKey c.1)

/-- Strictly sorted, of C string members and scores that are numbers, each member once. -/
structure Ordered (C : List (Bytes × Double)) : Prop where
  sorted : C.Pairwise fun a b => pairKey a < pairKey b
  nulFree : ∀ c ∈ C, NulFree c.1
  number : ∀ c ∈ C, c.2.isNaN = false
  nodup : NodupKeys Prod.fst C

/-- Between numbers, the test of the search compares the keys. -/
theorem pairBefore_iff {member : Bytes} {score : Double} {c : Bytes × Double}
    (hs : score.isNaN = false) (hc : c.2.isNaN = false) :
    pairBefore member score c = true ↔ pairKey c < pairKey (member, score) := by
  rw [pairBefore, nodeBefore, newNode, Bool.or_eq_true, Bool.and_eq_true, decide_eq_true_eq,
    Double.lt_iff hc hs, Double.eq_iff hc hs, strcmp_neg_iff, pairKey, pairKey,
    Prod.Lex.toLex_lt_toLex]

/-- Of two members that are C strings, `strcmp` says whether they are equal. -/
theorem strcmp_eq_zero_of_nulFree {a b : Bytes} (ha : NulFree a) (hb : NulFree b) :
    strcmp a b = 0 ↔ a = b := by
  rw [strcmp_eq_zero_iff, ha.cstr_eq, hb.cstr_eq]

/-- Among C strings, the scan for a member is a lookup. -/
theorem find_strcmp {C : List (Bytes × Double)} (hnul : ∀ c ∈ C, NulFree c.1) {member : Bytes}
    (hm : NulFree member) :
    (C.find? fun c => decide (strcmp c.1 member = 0)) = lookup Prod.fst member C :=
  List.find?_congr fun c hc => by
    rw [decide_eq_decide]
    exact strcmp_eq_zero_of_nulFree (hnul c hc) hm

namespace Ordered

variable {C C₁ C₂ : List (Bytes × Double)} {member : Bytes} {score : Double}

/-- Nothing is in order. -/
theorem nil : Ordered [] := ⟨List.Pairwise.nil, by simp, by simp, List.nodup_nil⟩

/-- Less of it is in order. -/
theorem sublist (h : Ordered C) {C' : List (Bytes × Double)} (hsub : C'.Sublist C) :
    Ordered C' where
  sorted := h.sorted.sublist hsub
  nulFree := fun c hc => h.nulFree c (hsub.subset hc)
  number := fun c hc => h.number c (hsub.subset hc)
  nodup := h.nodup.sublist (hsub.map Prod.fst)

/-- So is what is left without a member. -/
theorem without (h : Ordered C) (member : Bytes) : Ordered (without Prod.fst member C) :=
  h.sublist List.filter_sublist

/-- In front of the position everything is smaller. -/
theorem lt_of_position (h : Ordered (C₁ ++ C₂)) (hs : score.isNaN = false)
    (hpos : Position member score C₁ C₂) : ∀ c ∈ C₁, pairKey c < pairKey (member, score) := by
  rcases List.eq_nil_or_concat' C₁ with rfl | ⟨C, d, rfl⟩
  · exact fun c hc => absurd hc List.not_mem_nil
  · have hd : pairKey d < pairKey (member, score) :=
      (pairBefore_iff hs (h.number d (by simp))).mp (hpos.before d (by simp))
    intro c hc
    rcases List.mem_append.mp hc with hc | hc
    · -- `d` is the last one, so `c` is smaller than `d`
      have hsorted := (List.pairwise_append.mp (List.pairwise_append.mp h.sorted).1).2.2
      exact (hsorted c hc d List.mem_cons_self).trans hd
    · rwa [List.mem_singleton.mp hc]

/-- Behind the position nothing is smaller. -/
theorem le_of_position (h : Ordered (C₁ ++ C₂)) (hs : score.isNaN = false)
    (hpos : Position member score C₁ C₂) : ∀ c ∈ C₂, pairKey (member, score) ≤ pairKey c := by
  cases C₂ with
  | nil => exact fun c hc => absurd hc List.not_mem_nil
  | cons d C =>
    have hd : pairKey (member, score) ≤ pairKey d := by
      rw [← not_lt, ← pairBefore_iff hs (h.number d (by simp)), hpos.behind d rfl]
      exact Bool.false_ne_true
    intro c hc
    rcases List.mem_cons.mp hc with rfl | hc
    · exact hd
    · have hsorted := (List.pairwise_append.mp h.sorted).2.1
      exact hd.trans (List.rel_of_pairwise_cons hsorted hc).le

/-- A new member at its position keeps the order. -/
theorem insert (h : Ordered (C₁ ++ C₂)) (hm : NulFree member) (hs : score.isNaN = false)
    (hpos : Position member score C₁ C₂) (hnew : ∀ c ∈ C₁ ++ C₂, c.1 ≠ member) :
    Ordered (C₁ ++ (member, score) :: C₂) := by
  have hperm : (C₁ ++ (member, score) :: C₂).Perm ((member, score) :: (C₁ ++ C₂)) :=
    List.perm_middle
  have hall : ∀ P : Bytes × Double → Prop, P (member, score) → (∀ c ∈ C₁ ++ C₂, P c) →
      ∀ c ∈ C₁ ++ (member, score) :: C₂, P c := fun P hP hrest c hc => by
    rcases List.mem_cons.mp (hperm.subset hc) with rfl | hc
    · exact hP
    · exact hrest c hc
  obtain ⟨hsorted₁, hsorted₂, hcross⟩ := List.pairwise_append.mp h.sorted
  have hlt := h.lt_of_position hs hpos
  -- behind the position the keys are different, since equal keys have equal members
  have hgt : ∀ c ∈ C₂, pairKey (member, score) < pairKey c := by
    intro c hc
    have hmem : c ∈ C₁ ++ C₂ := List.mem_append_right C₁ hc
    refine (h.le_of_position hs hpos c hc).lt_of_ne fun heq => hnew c hmem ?_
    have hkey : cstrKey member = cstrKey c.1 := congrArg (fun k => (ofLex k).2) heq
    rw [cstrKey_inj, hm.cstr_eq, (h.nulFree c hmem).cstr_eq] at hkey
    exact hkey.symm
  refine ⟨?_, hall _ hm h.nulFree, hall _ hs h.number, (h.nodup.cons hnew).perm hperm.symm⟩
  refine List.pairwise_append.mpr ⟨hsorted₁, List.pairwise_cons.mpr ⟨hgt, hsorted₂⟩, ?_⟩
  intro a ha b hb
  rcases List.mem_cons.mp hb with rfl | hb
  · exact hlt a ha
  · exact hcross a ha b hb

end Ordered

/-! ### The two updates of an ordered list -/

section Updates

variable {sl : SkipList} {C : List (Bytes × Double)} (hC : sl.Holds C) (ho : Ordered C)
  {member : Bytes}

include hC ho

/-- Deleting a member by a score equal to its current one removes it. -/
theorem slDelete_ordered {s score : Double} (hmem : (member, s) ∈ C) (heq : s.eq score = true) :
    (slDelete sl member score).2 = true ∧
      (slDelete sl member score).1.Holds (without Prod.fst member C) := by
  have hs : score.isNaN = false := by
    simp only [Double.eq, Bool.and_eq_true, Bool.not_eq_true'] at heq
    exact heq.1.2
  have hkey : pairKey (member, s) = pairKey (member, score) := by
    rw [Double.eq_iff (ho.number _ hmem) hs] at heq
    rw [pairKey, pairKey, heq]
  obtain ⟨C₁, C₂, rfl, hpos, hcase⟩ := slDelete_holds hC member score
  have hlt := ho.lt_of_position hs hpos
  have hle := ho.le_of_position hs hpos
  -- the member is behind the position, and first there
  have hmem₂ : (member, s) ∈ C₂ := by
    rcases List.mem_append.mp hmem with h | h
    · exact absurd (hlt _ h) (by rw [hkey]; exact lt_irrefl _)
    · exact h
  obtain ⟨C₃, rfl⟩ : ∃ C₃, C₂ = (member, s) :: C₃ := by
    cases C₂ with
    | nil => exact absurd hmem₂ List.not_mem_nil
    | cons d C₃ =>
      rcases List.mem_cons.mp hmem₂ with rfl | h
      · exact ⟨C₃, rfl⟩
      · -- a pair in front of the member would be smaller, and the search would have passed it
        have hsorted := (List.pairwise_append.mp ho.sorted).2.1
        have hd := List.rel_of_pairwise_cons hsorted h
        rw [hkey] at hd
        exact absurd (hle d List.mem_cons_self) (not_le.mpr hd)
  have hzero : strcmp member member = 0 := (strcmp_eq_zero_iff _ _).mpr rfl
  rcases hcase with ⟨hmiss, -⟩ | ⟨c, C₄, hcons, -, hfound, hholds⟩
  · exact absurd hzero (hmiss _ rfl)
  · obtain ⟨rfl, rfl⟩ := List.cons.inj hcons
    refine ⟨hfound, ?_⟩
    -- the member occurs once, so taking this pair out drops the member
    have hdrop : without Prod.fst member (C₁ ++ (member, s) :: C₃) = C₁ ++ C₃ :=
      ho.nodup.without_middle
    rw [hdrop]
    exact hholds

/-- Deleting an absent member does nothing, whatever the score. -/
theorem slDelete_absent (hm : NulFree member) (habsent : ∀ c ∈ C, c.1 ≠ member)
    (score : Double) : slDelete sl member score = (sl, false) := by
  obtain ⟨C₁, C₂, rfl, -, ⟨-, hsame⟩ | ⟨c, C₃, rfl, hzero, -, -⟩⟩ := slDelete_holds hC member score
  · exact hsame
  · have hmem : c ∈ C₁ ++ c :: C₃ := List.mem_append_right C₁ List.mem_cons_self
    rw [strcmp_eq_zero_of_nulFree (ho.nulFree c hmem) hm] at hzero
    exact absurd hzero (habsent c hmem)

/-- **Insertion sets or updates.** -/
theorem slInsert_ordered (hm : NulFree member) {score : Double} (hs : score.isNaN = false)
    {lvl : ℕ} (hlvl : 0 < lvl) :
    ∃ C', (slInsert sl member score lvl).Holds C' ∧ Ordered C' ∧
      C'.Perm ((member, score) :: without Prod.fst member C) := by
  -- in front of the insertion the list has everything but the member
  obtain ⟨C₁, C₂, hsplit, hpos, hholds⟩ := slInsert_holds hC member score hlvl
    (without Prod.fst member C) (by
      rw [find_strcmp ho.nulFree hm]
      cases hl : lookup Prod.fst member C with
      | none => exact without_of_forall_ne (lookup_eq_none.mp hl)
      | some c =>
        obtain ⟨hc, rfl⟩ := of_lookup_eq_some hl
        have hnum := ho.number c hc
        exact (slDelete_ordered hC ho hc ((Double.eq_iff hnum hnum).mpr rfl)).2)
  have ho' : Ordered (C₁ ++ C₂) := hsplit ▸ ho.without member
  have hnew : ∀ c ∈ C₁ ++ C₂, c.1 ≠ member := by
    rw [← hsplit]
    exact fun c hc => (mem_without.mp hc).2
  refine ⟨_, hholds, ho'.insert hm hs hpos hnew, ?_⟩
  rw [hsplit]
  exact List.perm_middle

end Updates

end Minired
