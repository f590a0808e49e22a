import Minired.RespPointers

/-!
# Signed sums of the parser

`resp_parse` adds two to a position, which is an `int`, and to a length, which is a `long` that
the client has chosen, and it counts its arguments in a `long`. `strtol` saturates at the ends of
the range of a `long`, and the length is only checked for being negative before it is added to.
Here the parser is the one that works on the bytes that are left, with every signed sum checked
(`respSigned`); it takes the results of `find_crlf` and `strtol` as they are.

`SignedSafe` is the condition on the buffer: the line ends that the parser uses are not at the last
two positions of an `int`, and no header that the loop comes to tells one of the last two numbers
of a `long`. **`resp_parse_signed_iff`**: this is exactly when no signed sum overflows. If none
does, the result is that of `respParse` (`respSigned_of_safe`).
-/

namespace Minired

/-! ### The parser with its signed sums -/

/-- A sum of `long`s. -/
def longAdd (a b : Int) : Checked Int :=
  if LLONG_MIN ≤ a + b ∧ a + b ≤ LLONG_MAX then .ok (a + b) else .error .overflow

/-- The body of the loop over the arguments: the status, the argument, and what is left. -/
def respItemSigned (p : Bytes) : Checked (RespStatus × Bytes × Bytes) :=
  if p.length < 3 then return (.incomplete, [], p)
  else if p.headD 0 ≠ 36 then return (.error, [], p)
  else
    let lenCrlf := findCrlf p
    if lenCrlf < 0 then return (.incomplete, [], p)
    else
      let slen := (strtoll (p.drop 1)).1
      if slen < 0 then return (.error, [], p)
      else do
        let p := p.drop (← intAdd lenCrlf 2).toNat
        let size ← longAdd slen 2
        if p.length < size.toNat then return (.incomplete, [], p)
        else return (.ok, p.take slen.toNat, p.drop size.toNat)

/-- The loop over the arguments, with the number of those to come, and with the counter `i`. -/
def respItemsSigned : ℕ → Int → Bytes → List Bytes → Checked (RespStatus × List Bytes × Bytes)
  | 0, _, p, args => return (.ok, args, p)
  | n + 1, i, p, args => do
    match ← respItemSigned p with
    | (.ok, item, p) => respItemsSigned n (← longAdd i 1) p (args ++ [item])
    | (status, _, p) => return (status, args, p)

/-- `resp_parse`. -/
def respSigned (buf : Bytes) : Checked RespResult :=
  match buf with
  | [] => return ⟨.incomplete, [], 0⟩
  | b :: _ =>
    let crlf := findCrlf buf
    if b ≠ 42 then
      if crlf < 0 then return ⟨.incomplete, [], 0⟩
      else
        let args := inlineArgs (buf.take crlf.toNat)
        if args = [] then return ⟨.error, [], 0⟩
        else return ⟨.ok, args, (← intAdd crlf 2).toNat⟩
    else
      if crlf < 0 then return ⟨.incomplete, [], 0⟩
      else
        let argc := (strtoll (buf.drop 1)).1
        if argc ≤ 0 then return ⟨.error, [], 0⟩
        else do
          match ← respItemsSigned argc.toNat 0 (buf.drop (← intAdd crlf 2).toNat) [] with
          | (.ok, args, rest) => return ⟨.ok, args, buf.length - rest.length⟩
          | (status, args, _) => return ⟨status, args, 0⟩

/-- **No signed sum overflows.** -/
def NoSignedOverflow (buf : Bytes) : Prop := respSigned buf ≠ .error .overflow

/-! ### The condition -/

/-- Two bytes behind this position of a line end is still an `int`. -/
def NearLine (p : Bytes) : Prop := findCrlf p ≤ 2 ^ 31 - 3

/-- A header that the parser reads to its end is not too large for the sums with two. -/
def SafeHeader (p : Bytes) : Prop :=
  3 ≤ p.length → p.headD 0 = 36 → 0 ≤ findCrlf p → 0 ≤ headerNumber p →
    NearLine p ∧ headerNumber p ≤ LLONG_MAX - 2

/-- `P` holds of the buffer in front of each of the first `n` headers that the loop comes to: the
arguments in front of it are all there. -/
def EachHeader (P : Bytes → Prop) : ℕ → Bytes → Prop
  | 0, _ => True
  | n + 1, p => P p ∧ ∀ item rest, IsItem p item rest → EachHeader P n rest

/-- **The condition.** -/
def SignedSafe (buf : Bytes) : Prop :=
  0 ≤ findCrlf buf →
    (buf.head? ≠ some 42 → inlineArgs (buf.take (findCrlf buf).toNat) ≠ [] → NearLine buf) ∧
      (buf.head? = some 42 → 0 < headerNumber buf →
        NearLine buf ∧ EachHeader SafeHeader (headerNumber buf).toNat (behindHeader buf))

/-! ### Sums -/

variable {p buf : Bytes}

/-- Two bytes behind a line end. -/
theorem intAdd_two_of_near (hline : 0 ≤ findCrlf p) (h : NearLine p) :
    (intAdd (findCrlf p) 2) = .ok (findCrlf p + 2) ∧
      (findCrlf p + 2).toNat = (findCrlf p).toNat + 2 := by
  unfold NearLine at h
  exact ⟨if_pos ⟨by omega, by omega⟩, by omega⟩

/-- Behind a line end that is too far away the sum overflows. -/
theorem intAdd_two_of_not_near (h : ¬NearLine p) :
    intAdd (findCrlf p) 2 = .error .overflow := by
  unfold NearLine at h
  exact if_neg fun hfits => h (by omega)

/-- Two more than a length that leaves room for them. -/
theorem longAdd_two_of_le {n : Int} (hn : 0 ≤ n) (h : n ≤ LLONG_MAX - 2) :
    longAdd n 2 = .ok (n + 2) ∧ (n + 2).toNat = n.toNat + 2 := by
  have hmin : LLONG_MIN ≤ 0 := by decide
  exact ⟨if_pos ⟨by omega, by omega⟩, by omega⟩

/-- Two more than the largest lengths overflow. -/
theorem longAdd_two_of_not_le {n : Int} (h : ¬n ≤ LLONG_MAX - 2) :
    longAdd n 2 = .error .overflow :=
  if_neg fun hfits => h (by omega)

/-- The counter does not pass the number of arguments. -/
theorem longAdd_one {n : ℕ} {i : Int} (hi : 0 ≤ i) (hn : i + (n + 1 : ℕ) ≤ LLONG_MAX) :
    longAdd i 1 = .ok (i + 1) := by
  have hmin : LLONG_MIN ≤ 0 := by decide
  exact if_pos ⟨by omega, by omega⟩

/-! ### One argument -/

/-- An argument with a safe header is read without overflow. -/
theorem respItemSigned_of_safe (h : SafeHeader p) : respItemSigned p = .ok (respItem p) := by
  unfold respItemSigned respItem
  dsimp only
  rw [← headerNumber]
  by_cases hlen : p.length < 3
  · rw [if_pos hlen, if_pos hlen]
    rfl
  rw [if_neg hlen, if_neg hlen]
  by_cases hmark : p.headD 0 ≠ 36
  · rw [if_pos hmark, if_pos hmark]
    rfl
  rw [if_neg hmark, if_neg hmark]
  by_cases hline : findCrlf p < 0
  · rw [if_pos hline, if_pos hline]
    rfl
  rw [if_neg hline, if_neg hline]
  by_cases hneg : headerNumber p < 0
  · rw [if_pos hneg, if_pos hneg]
    rfl
  rw [if_neg hneg, if_neg hneg]
  -- both sums fit
  obtain ⟨hnear, hnumber⟩ := h (not_lt.mp hlen) (not_not.mp hmark) (not_lt.mp hline)
    (not_lt.mp hneg)
  obtain ⟨hint, hskip⟩ := intAdd_two_of_near (not_lt.mp hline) hnear
  obtain ⟨hlong, hsize⟩ := longAdd_two_of_le (not_lt.mp hneg) hnumber
  rw [hint, checked_bind, hskip, hlong, checked_bind, hsize, ← behindHeader]
  split_ifs
  · rfl
  · rfl

/-- With any other header, a sum overflows. -/
theorem respItemSigned_of_not_safe (h : ¬SafeHeader p) :
    respItemSigned p = .error .overflow := by
  unfold SafeHeader at h
  push Not at h
  obtain ⟨hlen, hmark, hline, hneg, hlarge⟩ := h
  unfold respItemSigned
  dsimp only
  rw [← headerNumber, if_neg (not_lt.mpr hlen), if_neg (not_not.mpr hmark),
    if_neg (not_lt.mpr hline), if_neg (not_lt.mpr hneg)]
  by_cases hnear : NearLine p
  · rw [(intAdd_two_of_near hline hnear).1, checked_bind,
      longAdd_two_of_not_le (not_le.mpr (hlarge hnear))]
    rfl
  · rw [intAdd_two_of_not_near hnear]
    rfl

/-! ### The loop and the parser -/

/-- The counter stays below the number of arguments, so only the headers matter. -/
theorem respItemsSigned_of_safe (n : ℕ) {i : Int} (hi : 0 ≤ i) (hn : i + n ≤ LLONG_MAX)
    (args : List Bytes) (h : EachHeader SafeHeader n p) :
    respItemsSigned n i p args = .ok (respItems n p args) := by
  induction n generalizing i p args with
  | zero => rfl
  | succ n ih =>
    rw [respItemsSigned, respItemSigned_of_safe h.1, checked_bind, respItems_succ]
    rcases hitem : respItem p with ⟨_ | _ | _, item, rest⟩
    · dsimp only
      rw [longAdd_one hi hn, checked_bind]
      rw [Nat.cast_succ] at hn
      exact ih (by omega) (by omega) _ (h.2 item rest (respItem_ok_iff.mp hitem))
    · rfl
    · rfl

/-- The loop comes to a header that makes a sum overflow, if there is one. -/
theorem respItemsSigned_of_not_safe (n : ℕ) {i : Int} (hi : 0 ≤ i) (hn : i + n ≤ LLONG_MAX)
    (args : List Bytes) (h : ¬EachHeader SafeHeader n p) :
    respItemsSigned n i p args = .error .overflow := by
  induction n generalizing i p args with
  | zero => exact absurd trivial h
  | succ n ih =>
    rw [respItemsSigned]
    by_cases hsafe : SafeHeader p
    · -- this header is safe, so the argument is there and the other header is behind it
      obtain ⟨item, rest, hitem, hrest⟩ :
          ∃ item rest, IsItem p item rest ∧ ¬EachHeader SafeHeader n rest := by
        by_contra hnone
        refine h ⟨hsafe, fun item rest hitem => ?_⟩
        by_contra hrest
        exact hnone ⟨item, rest, hitem, hrest⟩
      rw [respItemSigned_of_safe hsafe, checked_bind, respItem_ok_iff.mpr hitem]
      dsimp only
      rw [longAdd_one hi hn, checked_bind]
      rw [Nat.cast_succ] at hn
      exact ih (by omega) (by omega) _ hrest
    · rw [respItemSigned_of_not_safe hsafe]
      rfl

/-- The number of arguments is a `long`. -/
theorem argc_le (buf : Bytes) (h : 0 < headerNumber buf) :
    (0 : Int) + ((headerNumber buf).toNat : ℕ) ≤ LLONG_MAX := by
  have hle : headerNumber buf ≤ LLONG_MAX := strtoll_le _
  omega

/-- The parser on a line. -/
theorem respSigned_inline {b : UInt8} (hb : b ≠ 42) (rest : Bytes) :
    (SignedSafe (b :: rest) ∧ respSigned (b :: rest) = .ok (respParse (b :: rest))) ∨
      (¬SignedSafe (b :: rest) ∧ respSigned (b :: rest) = .error .overflow) := by
  have hhead : (b :: rest).head? ≠ some 42 := fun h => hb (Option.some.inj h)
  unfold respSigned respParse
  dsimp only
  rw [if_pos hb, if_pos hb]
  by_cases hline : findCrlf (b :: rest) < 0
  · rw [if_pos hline, if_pos hline]
    exact .inl ⟨fun h => absurd hline (not_lt.mpr h), rfl⟩
  rw [if_neg hline, if_neg hline]
  by_cases hargs : inlineArgs ((b :: rest).take (findCrlf (b :: rest)).toNat) = []
  · rw [if_pos hargs, if_pos hargs]
    exact .inl ⟨fun _ => ⟨fun _ h => absurd hargs h, fun h => absurd h hhead⟩, rfl⟩
  rw [if_neg hargs, if_neg hargs]
  by_cases hnear : NearLine (b :: rest)
  · obtain ⟨hadd, hskip⟩ := intAdd_two_of_near (not_lt.mp hline) hnear
    rw [hadd, checked_bind, hskip]
    exact .inl ⟨fun _ => ⟨fun _ _ => hnear, fun h => absurd h hhead⟩, rfl⟩
  · rw [intAdd_two_of_not_near hnear]
    exact .inr ⟨fun h => hnear ((h (not_lt.mp hline)).1 hhead hargs), rfl⟩

/-- The parser on an array. -/
theorem respSigned_array (rest : Bytes) :
    (SignedSafe (42 :: rest) ∧ respSigned (42 :: rest) = .ok (respParse (42 :: rest))) ∨
      (¬SignedSafe (42 :: rest) ∧ respSigned (42 :: rest) = .error .overflow) := by
  have hhead : (42 :: rest).head? = some 42 := rfl
  unfold respSigned
  rw [respParse_array hhead]
  dsimp only
  rw [← headerNumber, if_neg (by decide)]
  by_cases hline : findCrlf (42 :: rest) < 0
  · -- no line end: nothing is added
    rw [if_pos hline, if_pos hline]
    exact .inl ⟨fun h => absurd hline (not_lt.mpr h), rfl⟩
  rw [if_neg hline, if_neg hline]
  by_cases hargc : headerNumber (42 :: rest) ≤ 0
  · -- no items: the array is refused before the sum
    rw [if_pos hargc, if_pos hargc]
    exact .inl ⟨fun _ => ⟨fun h => absurd hhead h, fun _ h => absurd hargc (not_le.mpr h)⟩, rfl⟩
  rw [if_neg hargc, if_neg hargc]
  have hcount := argc_le (42 :: rest) (not_le.mp hargc)
  by_cases hnear : NearLine (42 :: rest)
  · -- the header is skipped, and the items decide
    obtain ⟨hadd, hskip⟩ := intAdd_two_of_near (not_lt.mp hline) hnear
    rw [hadd, checked_bind, hskip, ← behindHeader]
    by_cases heach : EachHeader SafeHeader (headerNumber (42 :: rest)).toNat
        (behindHeader (42 :: rest))
    · rw [respItemsSigned_of_safe _ le_rfl hcount _ heach, checked_bind]
      refine .inl ⟨fun _ => ⟨fun h => absurd hhead h, fun _ _ => ⟨hnear, heach⟩⟩, ?_⟩
      rcases respItems (headerNumber (42 :: rest)).toNat (behindHeader (42 :: rest)) [] with
        ⟨_ | _ | _, args, left⟩
      · rfl
      · rfl
      · rfl
    · rw [respItemsSigned_of_not_safe _ le_rfl hcount _ heach]
      exact .inr ⟨fun h => heach ((h (not_lt.mp hline)).2 hhead (not_le.mp hargc)).2, rfl⟩
  · -- the position behind the header does not fit
    rw [intAdd_two_of_not_near hnear]
    exact .inr ⟨fun h => hnear ((h (not_lt.mp hline)).2 hhead (not_le.mp hargc)).1, rfl⟩

/-- Either the buffer is safe, and then the sums do not matter for the result, or one overflows. -/
theorem respSigned_cases (buf : Bytes) :
    (SignedSafe buf ∧ respSigned buf = .ok (respParse buf)) ∨
      (¬SignedSafe buf ∧ respSigned buf = .error .overflow) := by
  cases buf with
  | nil => exact .inl ⟨fun h => absurd h (by decide), rfl⟩
  | cons b rest =>
    by_cases hb : b = 42
    · rw [hb]
      exact respSigned_array rest
    · exact respSigned_inline hb rest

/-- **In a safe buffer** the result is that of the parser without checks. -/
theorem respSigned_of_safe (h : SignedSafe buf) : respSigned buf = .ok (respParse buf) :=
  (respSigned_cases buf).elim And.right fun hnot => absurd h hnot.1

/-- **No signed sum of the parser overflows** if and only if the buffer is safe. -/
theorem resp_parse_signed_iff (buf : Bytes) : NoSignedOverflow buf ↔ SignedSafe buf := by
  unfold NoSignedOverflow
  rcases respSigned_cases buf with ⟨hsafe, hrun⟩ | ⟨hnot, hrun⟩
  · refine iff_of_true (fun h => ?_) hsafe
    rw [hrun] at h
    cases h
  · exact iff_of_false (fun h => h hrun) hnot

/-- An array whose first argument is announced with one of the last two numbers of a `long`. -/
theorem not_signedSafe_header {n item : ℕ} (hpos : n ≠ 0) (hn : n < 2 ^ 63)
    (hlarge : 2 ^ 63 - 2 ≤ item) (hitem : item < 2 ^ 63) (rest : Bytes) :
    ¬SignedSafe (header 42 n ++ (header 36 item ++ rest)) := by
  intro h
  have hline := findCrlf_header array_mark hn (header 36 item ++ rest)
  have hnumber : headerNumber (header 42 n ++ (header 36 item ++ rest)) = n :=
    strtoll_header hn 42 _
  have hbehind : behindHeader (header 42 n ++ (header 36 item ++ rest)) =
      header 36 item ++ rest := by
    rw [behindHeader, hline, Int.toNat_natCast, drop_header]
  obtain ⟨-, heach⟩ := (h (by omega)).2 rfl (by omega)
  obtain ⟨k, rfl⟩ := Nat.exists_eq_succ_of_ne_zero hpos
  rw [hnumber, hbehind, Int.toNat_natCast] at heach
  -- the first header that the loop comes to
  have hlong : 3 ≤ (header 36 item ++ rest).length := by
    rw [header, List.length_append, List.length_append, List.length_cons]
    show 3 ≤ (decimal item).length + 1 + 2 + rest.length
    omega
  have hlen : headerNumber (header 36 item ++ rest) = item := strtoll_header hitem 36 rest
  have hle := (heach.1 hlong rfl (by rw [findCrlf_header bulk_mark hitem]; omega)
    (by rw [hlen]; omega)).2
  rw [hlen, LLONG_MAX] at hle
  omega

/-- `*1` and `$9223372036854775807`: the length is the last number of a `long`. -/
theorem resp_parse_signed_overflow :
    ¬NoSignedOverflow (ascii "*1" ++ crlf ++ ascii "$9223372036854775807" ++ crlf) := by
  have hbuf : ascii "*1" ++ crlf ++ ascii "$9223372036854775807" ++ crlf =
      header 42 1 ++ (header 36 (2 ^ 63 - 1) ++ []) := by decide
  rw [hbuf]
  rcases respSigned_cases (header 42 1 ++ (header 36 (2 ^ 63 - 1) ++ [])) with
    ⟨hsafe, -⟩ | ⟨-, hrun⟩
  · exact absurd hsafe
      (not_signedSafe_header (by decide) (by decide) (by decide) (by decide) [])
  · exact fun h => h hrun

end Minired
