import Minired.SkipListOrder

/-!
# The skip list is a sorted map

The abstract skip list is a partial function from members to scores. `SlOp.onMap` says
what an insertion and a deletion mean on it, `SlOp.onList` runs them on the linked
structure, with the level that `random_level` came out with as part of the insertion.

`SlOp.Allowed` is what the callers keep to: C string members, scores that are numbers, and
deletions by the current score or of an absent member. Under it the two sides simulate
each other (`SlRel.step`), and `skipList_invariant` reads the linked structure off at the
end of any run.
-/

namespace Minired

open Chain Tower KeyedList Transducer

/-- A call on the skip list. -/
inductive SlOp
  | insert (member : Bytes) (score : Double) (lvl : ℕ)
  | delete (member : Bytes) (score : Double)

/-- The call on the linked structure. -/
def SlOp.onList (sl : SkipList) : SlOp → SkipList × Bool
  | .insert member score lvl => (slInsert sl member score lvl, true)
  | .delete member score => slDelete sl member score

/-- The call on a partial function: set or update, and remove. -/
def SlOp.onMap (M : Bytes → Option Double) : SlOp → (Bytes → Option Double) × Bool
  | .insert member score _ => (Function.update M member (some score), true)
  | .delete member _ => (Function.update M member none, (M member).isSome)

/-- The calls that callers make. -/
def SlOp.Allowed (M : Bytes → Option Double) : SlOp → Prop
  | .insert member score lvl =>
    NulFree member ∧ score.isNaN = false ∧ 1 ≤ lvl ∧ lvl ≤ SKIPLIST_MAX_LEVEL
  | .delete member score => NulFree member ∧ ∀ s, M member = some s → s.eq score = true

/-- The pairs are the graph of the partial function. -/
def Denotes (C : List (Bytes × Double)) (M : Bytes → Option Double) : Prop :=
  ∀ m s, (m, s) ∈ C ↔ M m = some s

/-- Removing a member from the pairs clears the partial function there. -/
theorem Denotes.without {C : List (Bytes × Double)} {M : Bytes → Option Double}
    (h : Denotes C M) (member : Bytes) :
    Denotes (without Prod.fst member C) (Function.update M member none) := by
  intro m s
  rw [mem_without, h m s]
  by_cases hm : m = member
  · subst hm
    simp
  · simp [hm]

/-- Setting a member in the pairs updates the partial function there. -/
theorem Denotes.set {C C' : List (Bytes × Double)} {M : Bytes → Option Double}
    (h : Denotes C M) {member : Bytes} {score : Double}
    (hp : C'.Perm ((member, score) :: KeyedList.without Prod.fst member C)) :
    Denotes C' (Function.update M member (some score)) := by
  intro m s
  rw [hp.mem_iff, List.mem_cons, h.without member m s]
  by_cases hm : m = member
  · subst hm
    simp [eq_comm]
  · simp [hm]

/-- A member without a score is in no pair. -/
theorem Denotes.absent {C : List (Bytes × Double)} {M : Bytes → Option Double}
    (h : Denotes C M) {member : Bytes} (hM : M member = none) : ∀ c ∈ C, c.1 ≠ member := by
  rintro ⟨m, s⟩ hc rfl
  rw [h, hM] at hc
  exact absurd hc (Option.some_ne_none s).symm

/-- The skip list is sorted and represents the partial function. -/
def SlRel (sl : SkipList) (M : Bytes → Option Double) : Prop :=
  ∃ C, sl.Holds C ∧ Ordered C ∧ Denotes C M

/-- The new skip list is the empty map. -/
theorem SlRel.fresh : SlRel slNew fun _ => none :=
  ⟨[], holds_slNew, Ordered.nil, fun _ _ => by simp⟩

/-- One allowed call keeps the representation and gives the same answer on both sides. -/
theorem SlRel.step (op : SlOp) {sl : SkipList} {M : Bytes → Option Double} (h : SlRel sl M)
    (hop : op.Allowed M) :
    SlRel (op.onList sl).1 (op.onMap M).1 ∧ (op.onList sl).2 = (op.onMap M).2 := by
  obtain ⟨C, hC, ho, hM⟩ := h
  cases op with
  | insert member score lvl =>
    obtain ⟨hm, hs, hlvl, -⟩ := hop
    obtain ⟨C', hC', ho', hp⟩ := slInsert_ordered hC ho hm hs hlvl
    exact ⟨⟨C', hC', ho', hM.set hp⟩, rfl⟩
  | delete member score =>
    obtain ⟨hm, hcur⟩ := hop
    cases hMm : M member with
    | none =>
      -- whatever score is given, no node has the member
      have hsame := slDelete_absent hC ho hm (hM.absent hMm) score
      have hupd : Function.update M member none = M := by rw [← hMm, Function.update_eq_self]
      simp only [SlOp.onList, SlOp.onMap, hsame, hupd, hMm]
      exact ⟨⟨C, hC, ho, hM⟩, rfl⟩
    | some s =>
      obtain ⟨hfound, hC'⟩ := slDelete_ordered hC ho ((hM _ _).mpr hMm) (hcur s hMm)
      refine ⟨⟨_, hC', ho.without member, hM.without member⟩, ?_⟩
      simp only [SlOp.onList, SlOp.onMap, hfound, hMm, Option.isSome_some]

/-- The linked structure of the skip list, for its nodes `L` and the map `M` it stands for. -/
structure SkipList.Sound (sl : SkipList) (M : Bytes → Option Double) (L : List Addr) : Prop where
  /-- The level-0 chain has the nodes `L`, which all exist. -/
  chain : Linked (slForward sl 0) sl.header L ∧ ∀ a ∈ L, (sl.mem a).isSome
  /-- It is strictly increasing in score and member. -/
  sorted : L.Pairwise fun a b => pairBefore (slPair sl b).1 (slPair sl b).2 (slPair sl a) = true
  /-- It has every member once. -/
  nodup : (L.map fun a => (slPair sl a).1).Nodup
  /-- Its pairs are those of the map. -/
  pairs : ∀ m s, (m, s) ∈ L.map (slPair sl) ↔ M m = some s
  /-- The level-`i` chain has the nodes whose level exceeds `i`, in the same order. -/
  levels : ∀ i, Linked (slForward sl i) sl.header (L.filter fun a => i < slHeight sl a)
  /-- `level` is 1 or the highest level in use. -/
  level_used : (∀ a ∈ L, slHeight sl a ≤ sl.level) ∧
    (sl.level = 1 ∨ ∃ a ∈ L, slHeight sl a = sl.level)
  /-- The header points nowhere from `level` on. -/
  header_null : ∀ i, sl.level ≤ i → slForward sl i sl.header = none
  /-- `length` is the number of nodes. -/
  length_eq : sl.length = L.length

/-- The representation of a map has the linked structure. -/
theorem SlRel.sound {sl : SkipList} {M : Bytes → Option Double} (h : SlRel sl M) :
    ∃ L, sl.Sound M L := by
  obtain ⟨_, ⟨L, hR, rfl⟩, ho, hM⟩ := h
  have hnum : ∀ a ∈ L, (slPair sl a).2.isNaN = false := fun a ha =>
    ho.number _ (List.mem_map_of_mem ha)
  have hsorted := ho.sorted
  rw [List.pairwise_map] at hsorted
  -- the structure is that of `Repr`, and the order that of the content
  refine ⟨L, ⟨hR.linked, fun a ha => hR.live a (List.mem_cons_of_mem _ ha)⟩, ?_, ?_, hM,
    hR.towers, ⟨hR.height_le, hR.level_used⟩, fun i hi => hR.header_null hi, hR.length_eq⟩
  · exact hsorted.imp_of_mem fun ha hb hlt => (pairBefore_iff (hnum _ hb) (hnum _ ha)).mpr hlt
  · have hnd := ho.nodup
    rwa [NodupKeys, List.map_map] at hnd

/-- **The skip list is a sorted map, on every level.** After any run of allowed calls on a
fresh list, whatever level each insertion drew: the level-0 chain is strictly increasing,
has the pairs of the map, each member once; every higher chain is the part of it that is
tall enough; and `level`, `length` and the header agree with it. The calls answer as the
map does. -/
theorem skipList_invariant (ops : List SlOp)
    (hops : RunOk SlOp.onMap SlOp.Allowed (fun _ => none) ops) :
    (∃ L, (run SlOp.onList slNew ops).1.Sound (run SlOp.onMap (fun _ => none) ops).1 L) ∧
      (run SlOp.onList slNew ops).2 = (run SlOp.onMap (fun _ => none) ops).2 := by
  obtain ⟨hrel, hanswers⟩ := run_simulation_of_ok (R := SlRel)
    (fun op _ _ h hop => h.step op hop) SlRel.fresh hops
  exact ⟨hrel.sound, hanswers⟩

/-- A member is inserted, moved to another score, a second one goes in on a higher level,
and the first is deleted. -/
theorem skipList_invariant_update_delete :
    let ops : List SlOp := [.insert (ascii "a") .one 2, .insert (ascii "a") ⟨0⟩ 1,
      .insert (ascii "b") .one 5, .delete (ascii "a") ⟨0⟩, .delete (ascii "c") .one]
    RunOk SlOp.onMap SlOp.Allowed (fun _ => none) ops ∧
      (∃ L, (run SlOp.onList slNew ops).1.Sound (run SlOp.onMap (fun _ => none) ops).1 L) ∧
      (run SlOp.onList slNew ops).2 = (run SlOp.onMap (fun _ => none) ops).2 := by
  intro ops
  have hone : Double.one.isNaN = false := by decide
  have hzero : Double.isNaN ⟨0⟩ = false := by decide
  have hops : RunOk SlOp.onMap SlOp.Allowed (fun _ => none) ops := by
    refine ⟨⟨by decide, hone, by decide, by decide⟩, ⟨by decide, hzero, by decide, by decide⟩,
      ⟨by decide, hone, by decide, by decide⟩, ⟨by decide, fun s hs => ?_⟩,
      ⟨by decide, fun s hs => ?_⟩, trivial⟩
    · have hne : ascii "a" ≠ ascii "b" := by decide
      simp only [SlOp.onMap, Function.update_of_ne hne, Function.update_self,
        Option.some.injEq] at hs
      rw [← hs]
      decide
    · have hne : ascii "c" ≠ ascii "a" ∧ ascii "c" ≠ ascii "b" := by decide
      simp [SlOp.onMap, hne] at hs
  exact ⟨hops, skipList_invariant ops hops⟩

end Minired
