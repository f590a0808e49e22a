import Mathlib

/-!
# Lists of keyed entries, and bucket arrays of them

A list of entries with pairwise different keys is a finite map. This file has the
operations a chained hash table performs on one chain, and the transfer of each of
them from a chain to the concatenation of all chains.

* `lookup`, `without` — find the entry of a key, drop it;
* `NodupKeys` — the keys are pairwise different;
* `Placed idx bs` — every entry of the bucket array `bs` lies in the bucket that
  `idx` assigns to its key. Under it, an operation on the bucket of `k` is the same
  operation on the concatenation of all buckets (`lookup_flatten`,
  `flatten_modify`), because no other bucket holds an entry of key `k`.
-/

namespace KeyedList

variable {E K : Type*} [DecidableEq K] (key : E → K)

/-- The first entry with key `k`. -/
def lookup (k : K) (es : List E) : Option E := es.find? (fun e => key e = k)

/-- The entries whose key is not `k`. -/
def without (k : K) (es : List E) : List E := es.filter (fun e => key e ≠ k)

/-- No two entries have the same key. -/
def NodupKeys (es : List E) : Prop := (es.map key).Nodup

variable {key}

/-- What is left are the entries of other keys. -/
theorem mem_without {k : K} {es : List E} {e : E} :
    e ∈ without key k es ↔ e ∈ es ∧ key e ≠ k := by
  simp [without]

/-- Nothing is found where no entry has the key. -/
theorem lookup_eq_none {k : K} {es : List E} :
    lookup key k es = none ↔ ∀ e ∈ es, key e ≠ k := by
  simp [lookup]

/-- What `lookup` finds is an entry of that key. -/
theorem of_lookup_eq_some {k : K} {es : List E} {e : E} (h : lookup key k es = some e) :
    e ∈ es ∧ key e = k :=
  ⟨List.mem_of_find?_eq_some h, by simpa using List.find?_some h⟩

/-- Dropping a key that does not occur changes nothing. -/
theorem without_of_forall_ne {k : K} {es : List E} (h : ∀ e ∈ es, key e ≠ k) :
    without key k es = es :=
  List.filter_eq_self.mpr (by simpa using h)

namespace NodupKeys

variable {es es' : List E}

omit [DecidableEq K] in
/-- The keys of no entries are different. -/
theorem nil : NodupKeys key ([] : List E) := List.nodup_nil

omit [DecidableEq K] in
/-- An entry of a new key can be added. -/
theorem cons {e : E} (h : NodupKeys key es) (he : ∀ e' ∈ es, key e' ≠ key e) :
    NodupKeys key (e :: es) := by
  refine List.nodup_cons.mpr ⟨fun hmem => ?_, h⟩
  obtain ⟨e', he', heq⟩ := List.mem_map.mp hmem
  exact he e' he' heq

omit [DecidableEq K] in
/-- Behind an entry there are other keys, and they are different. -/
theorem of_cons {e : E} (h : NodupKeys key (e :: es)) :
    (∀ e' ∈ es, key e' ≠ key e) ∧ NodupKeys key es := by
  obtain ⟨hnotin, htail⟩ := List.nodup_cons.mp h
  exact ⟨fun e' he' heq => hnotin (List.mem_map.mpr ⟨e', he', heq⟩), htail⟩

omit [DecidableEq K] in
/-- The order does not matter. -/
theorem perm (h : NodupKeys key es) (hp : es.Perm es') : NodupKeys key es' :=
  (hp.map key).nodup_iff.mp h

/-- Without some entries the keys are different still. -/
theorem without (h : NodupKeys key es) (k : K) : NodupKeys key (without key k es) :=
  h.sublist (List.filter_sublist.map key)

omit [DecidableEq K] in
/-- Two entries of one key are the same entry. -/
theorem eq_of_key_eq (h : NodupKeys key es) {e e' : E} (he : e ∈ es) (he' : e' ∈ es)
    (hk : key e = key e') : e = e' :=
  List.inj_on_of_nodup_map h he he' hk

/-- With different keys, `lookup` finds exactly the entry of that key. -/
theorem lookup_eq_some_iff (h : NodupKeys key es) {k : K} {e : E} :
    lookup key k es = some e ↔ e ∈ es ∧ key e = k := by
  refine ⟨of_lookup_eq_some, fun ⟨he, hk⟩ => ?_⟩
  cases hl : lookup key k es with
  | none => exact absurd hk (lookup_eq_none.mp hl e he)
  | some e' =>
    obtain ⟨he', hk'⟩ := of_lookup_eq_some hl
    rw [h.eq_of_key_eq he' he (hk'.trans hk.symm)]

/-- An entry can be moved to the front. -/
theorem perm_cons_without (h : NodupKeys key es) {e : E} (he : e ∈ es) :
    es.Perm (e :: KeyedList.without key (key e) es) := by
  induction es with
  | nil => exact absurd he List.not_mem_nil
  | cons a es ih =>
    obtain ⟨hne, htail⟩ := h.of_cons
    rcases List.mem_cons.mp he with rfl | hmem
    · -- the head is the only entry of its key
      have hdrop : KeyedList.without key (key e) (e :: es) = es := by
        rw [KeyedList.without, List.filter_cons_of_neg (by simp)]
        exact without_of_forall_ne hne
      rw [hdrop]
    · have hkeep : KeyedList.without key (key e) (a :: es)
          = a :: KeyedList.without key (key e) es :=
        List.filter_cons_of_pos (by simpa using (hne e hmem).symm)
      rw [hkeep]
      exact ((ih htail hmem).cons a).trans (List.Perm.swap e a _)

/-- Dropping the key of an entry takes this one entry out. -/
theorem without_middle {es₁ es₂ : List E} {e : E} (h : NodupKeys key (es₁ ++ e :: es₂)) :
    KeyedList.without key (key e) (es₁ ++ e :: es₂) = es₁ ++ es₂ := by
  obtain ⟨hne, -⟩ := (h.perm List.perm_middle).of_cons
  rw [KeyedList.without, List.filter_append, List.filter_cons_of_neg (by simp),
    ← List.filter_append]
  exact without_of_forall_ne hne

/-- Dropping a key that occurs removes one entry. -/
theorem length_without (h : NodupKeys key es) {e : E} (he : e ∈ es) :
    (KeyedList.without key (key e) es).length + 1 = es.length := by
  simpa using (h.perm_cons_without he).length_eq.symm

/-- Erasing the first entry of a key erases all entries of it. -/
theorem eraseP_eq_without (h : NodupKeys key es) (k : K) :
    es.eraseP (fun e => key e = k) = KeyedList.without key k es := by
  induction es with
  | nil => rfl
  | cons a es ih =>
    obtain ⟨hne, htail⟩ := h.of_cons
    by_cases hk : key a = k
    · subst hk
      rw [List.eraseP_cons_of_pos (by simp), KeyedList.without,
        List.filter_cons_of_neg (by simp)]
      exact (without_of_forall_ne hne).symm
    · rw [List.eraseP_cons_of_neg (by simpa using hk), ih htail, KeyedList.without,
        KeyedList.without, List.filter_cons_of_pos (by simpa using hk)]

/-- Changing the entry of one key, in place, up to order. -/
theorem map_perm (h : NodupKeys key es) {f : E → E} {e : E} (he : e ∈ es)
    (hf : ∀ e' ∈ es, key e' ≠ key e → f e' = e') :
    (es.map f).Perm (f e :: KeyedList.without key (key e) es) := by
  refine ((h.perm_cons_without he).map f).trans ?_
  have hkeep : (KeyedList.without key (key e) es).map f
      = (KeyedList.without key (key e) es).map id :=
    List.map_congr_left fun e' he' => hf e' (mem_without.mp he').1 (mem_without.mp he').2
  rw [List.map_cons, hkeep, List.map_id]

end NodupKeys

/-! ### Bucket arrays -/

variable (key) in
/-- Every entry lies in the bucket that `idx` assigns to its key. -/
def Placed (idx : K → ℕ) (bs : List (List E)) : Prop :=
  ∀ i, ∀ e ∈ bs.getD i [], idx (key e) = i

omit [DecidableEq K] in
/-- An array of empty buckets is well placed. -/
theorem placed_replicate_nil (idx : K → ℕ) (n : ℕ) :
    Placed key idx (List.replicate n []) := by
  intro i e he
  rw [List.getD_eq_getElem?_getD, List.getElem?_replicate] at he
  split at he <;> exact absurd he List.not_mem_nil

omit [DecidableEq K] in
/-- An entry of the concatenation lies in the bucket of its key. -/
theorem Placed.mem_bucket {idx : K → ℕ} {bs : List (List E)} (h : Placed key idx bs) {e : E} :
    e ∈ bs.flatten ↔ e ∈ bs.getD (idx (key e)) [] := by
  rw [List.mem_flatten]
  constructor
  · rintro ⟨es, hes, he⟩
    -- some bucket has it, and that is the bucket of its key
    obtain ⟨i, hi, rfl⟩ := List.mem_iff_getElem.mp hes
    have hmem : e ∈ bs.getD i [] := by rwa [List.getD_eq_getElem _ _ hi]
    rwa [h i e hmem]
  · intro he
    by_cases hi : idx (key e) < bs.length
    · rw [List.getD_eq_getElem _ _ hi] at he
      exact ⟨_, List.getElem_mem hi, he⟩
    · rw [List.getD_eq_default _ _ (not_lt.mp hi)] at he
      exact absurd he List.not_mem_nil

/-- Looking a key up in its bucket is looking it up among all entries. -/
theorem Placed.lookup_flatten {idx : K → ℕ} {bs : List (List E)} (h : Placed key idx bs)
    (hnd : NodupKeys key bs.flatten) (k : K) :
    lookup key k (bs.getD (idx k) []) = lookup key k bs.flatten := by
  cases hl : lookup key k (bs.getD (idx k) []) with
  | none =>
    refine (lookup_eq_none.mpr fun e he hk => ?_).symm
    subst hk
    exact lookup_eq_none.mp hl e (h.mem_bucket.mp he) rfl
  | some e =>
    obtain ⟨he, hk⟩ := of_lookup_eq_some hl
    subst hk
    exact (hnd.lookup_eq_some_iff.mpr ⟨h.mem_bucket.mpr he, rfl⟩).symm

omit [DecidableEq K] in
/-- One bucket has different keys when all entries have. -/
theorem NodupKeys.bucket {bs : List (List E)} (h : NodupKeys key bs.flatten) (i : ℕ) :
    NodupKeys key (bs.getD i []) := by
  by_cases hi : i < bs.length
  · rw [List.getD_eq_getElem _ _ hi]
    exact h.sublist ((List.sublist_flatten_of_mem (List.getElem_mem hi)).map key)
  · rw [List.getD_eq_default _ _ (not_lt.mp hi)]
    exact NodupKeys.nil

/-- A change of one list is seen there only. -/
theorem getD_modify {bs : List (List E)} {i : ℕ} (hi : i < bs.length) (F : List E → List E)
    (j : ℕ) : (bs.modify i F).getD j [] = if j = i then F (bs.getD i []) else bs.getD j [] := by
  rw [List.getD_eq_getElem?_getD, List.getElem?_modify]
  by_cases hji : j = i
  · subst hji
    simp [List.getD_eq_getElem?_getD, List.getElem?_eq_getElem hi]
  · have hij : i ≠ j := fun h => hji h.symm
    simp [hij, hji, List.getD_eq_getElem?_getD]

/-- What a change of one bucket does elsewhere does not matter. -/
theorem modify_congr {bs : List (List E)} {i : ℕ} (hi : i < bs.length) {F G : List E → List E}
    (h : F (bs.getD i []) = G (bs.getD i [])) : bs.modify i F = bs.modify i G := by
  refine List.ext_getElem? fun j => ?_
  rw [List.getElem?_modify, List.getElem?_modify]
  by_cases hij : i = j
  · subst hij
    rw [List.getD_eq_getElem _ _ hi] at h
    simp [List.getElem?_eq_getElem hi, h]
  · simp [hij]

omit [DecidableEq K] in
/-- Placement survives a change of one bucket that puts only rightly placed entries there. -/
theorem Placed.modify {idx : K → ℕ} {bs : List (List E)} (h : Placed key idx bs) {i : ℕ}
    (hi : i < bs.length) {F : List E → List E}
    (hF : ∀ e ∈ F (bs.getD i []), idx (key e) = i) : Placed key idx (bs.modify i F) := by
  intro j e he
  rw [getD_modify hi] at he
  by_cases hji : j = i
  · subst hji
    rw [if_pos rfl] at he
    exact hF e he
  · rw [if_neg hji] at he
    exact h j e he

omit [DecidableEq K] in
/-- **Locality.** A list operation that acts entry by entry and leaves the entries of
other keys alone does the same work on the bucket of `k` as on all entries. -/
theorem Placed.flatten_modify {idx : K → ℕ} {bs : List (List E)} (h : Placed key idx bs)
    {k : K} (hk : idx k < bs.length) {F : List E → List E}
    (happ : ∀ es es', F (es ++ es') = F es ++ F es')
    (hid : ∀ es, (∀ e ∈ es, key e ≠ k) → F es = es) :
    (bs.modify (idx k) F).flatten = F bs.flatten := by
  have hother : ∀ j, j ≠ idx k → ∀ e ∈ bs.getD j [], key e ≠ k := by
    rintro j hj e he rfl
    exact hj (h j e he).symm
  generalize idx k = i at hk hother
  clear h
  -- the induction walks the array down to the bucket `i`
  induction bs generalizing i with
  | nil => exact absurd hk (Nat.not_lt_zero _)
  | cons b bs ih =>
    have hflat : F (b :: bs).flatten = F b ++ F bs.flatten := by
      rw [List.flatten_cons, happ]
    cases i with
    | zero =>
      -- nothing behind the bucket has the key
      have hrest : F bs.flatten = bs.flatten := by
        refine hid _ fun e he => ?_
        obtain ⟨es, hes, hmem⟩ := List.mem_flatten.mp he
        obtain ⟨j, hj, rfl⟩ := List.mem_iff_getElem.mp hes
        refine hother (j + 1) (Nat.succ_ne_zero j) e ?_
        rwa [List.getD_cons_succ, List.getD_eq_getElem _ _ hj]
      rw [hflat, hrest, List.modify_zero_cons, List.flatten_cons]
    | succ i =>
      -- nor has anything in front of it
      have hhead : F b = b := hid b fun e he => hother 0 (Nat.succ_ne_zero i).symm e he
      rw [hflat, hhead, List.modify_succ_cons, List.flatten_cons]
      congr 1
      refine ih i (by simpa using hk) fun j hj e he => hother (j + 1) (by omega) e ?_
      rwa [List.getD_cons_succ]

/-- Pushing an entry onto one bucket adds it to all entries. -/
theorem flatten_modify_cons_perm {bs : List (List E)} {i : ℕ} (hi : i < bs.length) (e : E) :
    (bs.modify i (e :: ·)).flatten.Perm (e :: bs.flatten) := by
  induction bs generalizing i with
  | nil => exact absurd hi (Nat.not_lt_zero _)
  | cons b bs ih =>
    cases i with
    | zero =>
      rw [List.modify_zero_cons]
      exact List.Perm.refl _
    | succ i =>
      rw [List.modify_succ_cons, List.flatten_cons, List.flatten_cons]
      exact ((ih (by simpa using hi)).append_left b).trans List.perm_middle

end KeyedList
