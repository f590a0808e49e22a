import Minired.Resp

/-!
# One argument at a time

`respItem` is one iteration of the loop of `resp_parse` over the arguments, and `respItems` is
its repetition. `IsItem` is what an iteration that takes an argument has found. `EachItem P`
says that `P` holds of the buffer in front of every argument that the loop takes, so that a
property of a whole command is one of its arguments.
-/

namespace Minired

/-- What is behind the line end that the parser finds. -/
def behindHeader (p : Bytes) : Bytes := p.drop ((findCrlf p).toNat + 2)

/-- The number that the parser reads behind the mark of a header. -/
def headerNumber (p : Bytes) : Int := (strtoll (p.drop 1)).1

/-- A positive count is one more than another. -/
theorem headerNumber_succ {p : Bytes} (hnumber : 0 < headerNumber p) :
    ∃ n, (headerNumber p).toNat = n + 1 :=
  ⟨(headerNumber p).toNat - 1, by omega⟩

/-- One iteration: its status, the argument, and what is left of the buffer. -/
def respItem (p : Bytes) : RespStatus × Bytes × Bytes :=
  if p.length < 3 then (.incomplete, [], p)
  else if p.headD 0 ≠ 36 then (.error, [], p)
  else if findCrlf p < 0 then (.incomplete, [], p)
  else if headerNumber p < 0 then (.error, [], p)
  else if (behindHeader p).length < (headerNumber p).toNat + 2 then
    (.incomplete, [], behindHeader p)
  else
    (.ok, (behindHeader p).take (headerNumber p).toNat,
      (behindHeader p).drop ((headerNumber p).toNat + 2))

/-- One round of the loop over the items. -/
theorem respItems_succ (n : ℕ) (p : Bytes) (args : List Bytes) :
    respItems (n + 1) p args =
      match respItem p with
      | (.ok, item, rest) => respItems n rest (args ++ [item])
      | (status, _, rest) => (status, args, rest) := by
  rw [respItem, headerNumber, behindHeader, respItems]
  dsimp only
  split_ifs <;> rfl

/-! ### Line ends -/

/-- The buffer around its first line end. -/
theorem crlfIndex_split {buf : Bytes} {i : ℕ} (h : crlfIndex buf = some i) :
    buf = buf.take i ++ crlf ++ buf.drop (i + 2) := by
  fun_induction crlfIndex buf generalizing i with
  | case1 b c rest hend =>
    obtain rfl := Option.some.inj h
    obtain ⟨rfl, rfl⟩ := hend
    rfl
  | case2 b c rest hend ih =>
    obtain ⟨j, hj, rfl⟩ := Option.map_eq_some_iff.mp h
    exact congrArg (b :: ·) (ih hj)
  | case3 => cases h

/-- The line end is where the parser sees it, or much further back. -/
theorem findCrlf_cases {p : Bytes} {j : ℕ} (hj : crlfIndex p = some j) (hline : 0 ≤ findCrlf p) :
    (findCrlf p).toNat = j ∨ (findCrlf p).toNat + 4 ≤ j := by
  rw [findCrlf, hj] at hline ⊢
  dsimp only at hline ⊢
  rw [Int.bmod_def] at hline ⊢
  split_ifs at hline ⊢ <;> omega

/-- A line end that is there stays where it is. -/
theorem crlfIndex_append {buf : Bytes} {i : ℕ} (h : crlfIndex buf = some i) (x : Bytes) :
    crlfIndex (buf ++ x) = some i := by
  fun_induction crlfIndex buf generalizing i with
  | case1 b c rest hend =>
    rw [List.cons_append, List.cons_append, crlfIndex, if_pos hend]
    exact h
  | case2 b c rest hend ih =>
    obtain ⟨j, hj, rfl⟩ := Option.map_eq_some_iff.mp h
    have htail := ih hj
    rw [List.cons_append] at htail
    rw [List.cons_append, List.cons_append, crlfIndex, if_neg hend, htail]
    rfl
  | case3 => cases h

/-- A line end that is there stays the first one, and lies within the buffer. -/
theorem findCrlf_append {p : Bytes} (hline : 0 ≤ findCrlf p) (x : Bytes) :
    findCrlf (p ++ x) = findCrlf p ∧ (findCrlf p).toNat + 2 ≤ p.length := by
  cases hindex : crlfIndex p with
  | none =>
    rw [findCrlf, hindex] at hline
    exact absurd hline (by decide)
  | some j =>
    refine ⟨by rw [findCrlf, findCrlf, crlfIndex_append hindex x, hindex], ?_⟩
    -- the line end itself is in the buffer
    have hlen := congrArg List.length (crlfIndex_split hindex)
    have hcrlf : crlf.length = 2 := rfl
    simp only [List.length_append, List.length_take, List.length_drop] at hlen
    rcases findCrlf_cases hindex hline with heq | hearly
    · omega
    · omega

/-- What stands behind the header grows with the buffer. -/
theorem behindHeader_append {p : Bytes} (hline : 0 ≤ findCrlf p) (x : Bytes) :
    behindHeader (p ++ x) = behindHeader p ++ x := by
  obtain ⟨hsame, hlen⟩ := findCrlf_append hline x
  rw [behindHeader, behindHeader, hsame, List.drop_append_of_le_length hlen]

/-! ### Arguments -/

/-- An argument is at the front of the buffer, and the parser takes it. -/
structure IsItem (p item rest : Bytes) : Prop where
  long : 3 ≤ p.length
  mark : p.headD 0 = 36
  line : 0 ≤ findCrlf p
  number : 0 ≤ headerNumber p
  payload : (headerNumber p).toNat + 2 ≤ (behindHeader p).length
  item_eq : (behindHeader p).take (headerNumber p).toNat = item
  rest_eq : (behindHeader p).drop ((headerNumber p).toNat + 2) = rest

/-- An item is read where one stands. -/
theorem respItem_ok_iff {p item rest : Bytes} :
    respItem p = (.ok, item, rest) ↔ IsItem p item rest := by
  rw [respItem]
  constructor
  · -- the branches in the order of the code; only the last one takes an argument
    intro h
    split_ifs at h with hlen hmark hline hnumber hpayload
    · cases h
    · cases h
    · cases h
    · cases h
    · cases h
    · obtain ⟨-, h⟩ := Prod.mk.inj h
      obtain ⟨hitem, hrest⟩ := Prod.mk.inj h
      exact ⟨not_lt.mp hlen, not_not.mp hmark, not_lt.mp hline, not_lt.mp hnumber,
        not_lt.mp hpayload, hitem, hrest⟩
  · rintro ⟨hlen, hmark, hline, hnumber, hpayload, rfl, rfl⟩
    rw [if_neg (not_lt.mpr hlen), if_neg (not_not.mpr hmark), if_neg (not_lt.mpr hline),
      if_neg (not_lt.mpr hnumber), if_neg (not_lt.mpr hpayload)]

/-- An item is in error if it does not begin with a dollar, or has a negative length. -/
theorem respItem_error_iff {p : Bytes} :
    (respItem p).1 = .error ↔
      3 ≤ p.length ∧ (p.headD 0 = 36 → 0 ≤ findCrlf p ∧ headerNumber p < 0) := by
  rw [respItem]
  split_ifs with hlen hmark hline hnumber hpayload
  · exact iff_of_false (by simp) fun h => absurd h.1 (not_le.mpr hlen)
  · exact iff_of_true rfl ⟨not_lt.mp hlen, fun h => absurd h hmark⟩
  · refine iff_of_false (by simp) fun h => ?_
    exact absurd (h.2 (not_not.mp hmark)).1 (not_le.mpr hline)
  · exact iff_of_true rfl ⟨not_lt.mp hlen, fun _ => ⟨not_lt.mp hline, hnumber⟩⟩
  · exact iff_of_false (by simp) fun h => hnumber (h.2 (not_not.mp hmark)).2
  · exact iff_of_false (by simp) fun h => hnumber (h.2 (not_not.mp hmark)).2

/-- An item is as long as its header says. -/
theorem IsItem.length_item {p item rest : Bytes} (h : IsItem p item rest) :
    item.length = (headerNumber p).toNat := by
  rw [← h.item_eq, List.length_take]
  exact min_eq_left ((Nat.le_add_right _ 2).trans h.payload)

/-- `P` holds of the buffer in front of each of the first `n` arguments that the loop takes. -/
def EachItem (P : Bytes → Prop) : ℕ → Bytes → Prop
  | 0, _ => True
  | n + 1, p => (respItem p).1 = .ok → P p ∧ EachItem P n (respItem p).2.2

/-- Whether all items have a property can be computed. -/
instance EachItem.decidable {P : Bytes → Prop} [hP : DecidablePred P] :
    ∀ n p, Decidable (EachItem P n p)
  | 0, _ => inferInstanceAs (Decidable True)
  | n + 1, p =>
    @instDecidableForall _ _ _ (@instDecidableAnd _ _ (hP p) (EachItem.decidable n _))

/-- All items have it if the first has it and those behind it have. -/
theorem eachItem_succ {P : Bytes → Prop} {n : ℕ} {p item rest : Bytes}
    (h : IsItem p item rest) : EachItem P (n + 1) p ↔ P p ∧ EachItem P n rest := by
  rw [EachItem, respItem_ok_iff.mpr h]
  exact ⟨fun hall => hall rfl, fun hall _ => hall⟩

/-! ### The loop -/

/-- What the loop has read so far stays in front. -/
theorem prefix_of_respItems {n : ℕ} {p rest : Bytes} {args all : List Bytes}
    (h : respItems n p args = (.ok, all, rest)) : args <+: all := by
  induction n generalizing p args with
  | zero =>
    cases h
    exact List.prefix_refl _
  | succ n ih =>
    rw [respItems_succ] at h
    rcases hitem : respItem p with ⟨_ | _ | _, item, q⟩
    · rw [hitem] at h
      exact (List.prefix_append _ _).trans (ih h)
    · rw [hitem] at h
      cases h
    · rw [hitem] at h
      cases h

/-- A loop that ends well takes an argument in every iteration. -/
theorem respItems_ok_succ {n : ℕ} {p rest : Bytes} {args all : List Bytes}
    (h : respItems (n + 1) p args = (.ok, all, rest)) :
    ∃ item q, IsItem p item q ∧ respItems n q (args ++ [item]) = (.ok, all, rest) := by
  rw [respItems_succ] at h
  rcases hitem : respItem p with ⟨_ | _ | _, item, q⟩
  · rw [hitem] at h
    exact ⟨item, q, respItem_ok_iff.mp hitem, h⟩
  · rw [hitem] at h
    cases h
  · rw [hitem] at h
    cases h

/-- One argument an iteration. -/
theorem length_of_respItems {n : ℕ} {p rest : Bytes} {args all : List Bytes}
    (h : respItems n p args = (.ok, all, rest)) : all.length = args.length + n := by
  induction n generalizing p args with
  | zero =>
    cases h
    rfl
  | succ n ih =>
    obtain ⟨item, q, -, h⟩ := respItems_ok_succ h
    rw [ih h, List.length_append, List.length_singleton, Nat.add_assoc, Nat.add_comm 1]

/-- What is left behind the items is an end of the buffer. -/
theorem suffix_of_respItems {n : ℕ} {p rest : Bytes} {args all : List Bytes}
    (h : respItems n p args = (.ok, all, rest)) : rest <:+ p := by
  induction n generalizing p args with
  | zero =>
    cases h
    exact List.suffix_refl _
  | succ n ih =>
    obtain ⟨item, q, hitem, h⟩ := respItems_ok_succ h
    rw [← hitem.rest_eq, behindHeader, List.drop_drop] at h
    exact (ih h).trans (List.drop_suffix _ _)

/-! ### The header of the array -/

/-- `resp_parse` on an array. -/
theorem respParse_array {buf : Bytes} (hstar : buf.head? = some 42) :
    respParse buf =
      if findCrlf buf < 0 then ⟨.incomplete, [], 0⟩
      else if headerNumber buf ≤ 0 then ⟨.error, [], 0⟩
      else
        match respItems (headerNumber buf).toNat (behindHeader buf) [] with
        | (.ok, args, rest) => ⟨.ok, args, buf.length - rest.length⟩
        | (status, args, _) => ⟨status, args, 0⟩ := by
  cases buf with
  | nil => cases hstar
  | cons b buf =>
    obtain rfl : b = 42 := Option.some.inj hstar
    rw [respParse, if_neg (by decide)]
    rfl

/-- An array that is accepted has a line end, a positive count, and so many items. -/
theorem respParse_array_ok {buf : Bytes} (hstar : buf.head? = some 42) {args : List Bytes}
    {consumed : ℕ} (h : respParse buf = ⟨.ok, args, consumed⟩) :
    0 ≤ findCrlf buf ∧ 0 < headerNumber buf ∧ ∃ rest,
      respItems (headerNumber buf).toNat (behindHeader buf) [] = (.ok, args, rest) ∧
      consumed = buf.length - rest.length := by
  rw [respParse_array hstar] at h
  split_ifs at h with hline hnumber
  · cases h
  · cases h
  refine ⟨not_lt.mp hline, not_le.mp hnumber, ?_⟩
  rcases hitems : respItems (headerNumber buf).toNat (behindHeader buf) [] with
    ⟨_ | _ | _, all, rest⟩
  · rw [hitems] at h
    obtain ⟨-, rfl, rfl⟩ := RespResult.mk.inj h
    exact ⟨rest, rfl, rfl⟩
  · rw [hitems] at h
    cases h
  · rw [hitems] at h
    cases h

end Minired
