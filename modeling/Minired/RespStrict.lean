import Minired.RespItem

/-!
# What the array parser accepts

`IsRespArray items bytes` says that the bytes are an array of bulk strings as the protocol has
it. The parser finds the line ends and the numbers independently: `strtol` skips white space,
takes a sign, and does not mind what comes between the digits and the line end; and two bytes
are skipped behind a payload, whatever they are.

`StrictArray` is what it does not check: the header lines are digits, and a line end follows
each payload. `resp_array_strict_iff` says that a buffer that is accepted begins with an array
of the protocol if and only if this is so. It is about all buffers, those included where the
position of a line end does not fit an `int` (`digits_periodic`).
-/

namespace Minired

/-- Decimal digits, at least one, that write the number. -/
def IsNumeral (n : ℕ) (digits : Bytes) : Prop :=
  digits ≠ [] ∧ (∀ b ∈ digits, isdigit b = true) ∧ (scanDigits 0 digits).1 = n

/-- Bulk strings, one after the other. -/
inductive RespBulks : List Bytes → Bytes → Prop
  | nil : RespBulks [] []
  | cons {digits payload rest : Bytes} {items : List Bytes}
      (hnumber : IsNumeral payload.length digits) (hrest : RespBulks items rest) :
      RespBulks (payload :: items) (36 :: digits ++ crlf ++ (payload ++ crlf ++ rest))

/-- An array of bulk strings. -/
def IsRespArray (items : List Bytes) (bytes : Bytes) : Prop :=
  ∃ digits rest, IsNumeral items.length digits ∧ RespBulks items rest ∧
    bytes = 42 :: digits ++ crlf ++ rest

/-- What is between the mark and the line end that the parser finds. -/
def headerLine (p : Bytes) : Bytes := (p.take (findCrlf p).toNat).drop 1

/-- The line end is where the parser sees it, and in front of it there are digits only, for a
number of a `long`. -/
def StrictHeader (p : Bytes) : Prop :=
  crlfIndex p = some (findCrlf p).toNat ∧ headerLine p ≠ [] ∧
    (∀ b ∈ headerLine p, isdigit b = true) ∧
    ((scanDigits 0 (headerLine p)).1 : Int) ≤ LLONG_MAX

/-- Besides, a line end follows the payload. -/
def StrictItem (p : Bytes) : Prop :=
  StrictHeader p ∧ ((behindHeader p).drop (headerNumber p).toNat).take 2 = crlf

/-- What the parser does not check. -/
def StrictArray (buf : Bytes) : Prop :=
  StrictHeader buf ∧ EachItem StrictItem (headerNumber buf).toNat (behindHeader buf)

instance : DecidablePred StrictHeader := fun _ => inferInstanceAs (Decidable (_ ∧ _))

instance : DecidablePred StrictItem := fun _ => inferInstanceAs (Decidable (_ ∧ _))

instance : DecidablePred StrictArray := fun _ => inferInstanceAs (Decidable (_ ∧ _))

/-! ### Headers -/

/-- The digits of a header, and what is behind it. -/
theorem headerNumber_eq {mark : UInt8} {digits rest : Bytes} (hne : digits ≠ [])
    (hdigits : ∀ b ∈ digits, isdigit b = true) :
    headerNumber (mark :: digits ++ crlf ++ rest) =
      min LLONG_MAX ((scanDigits 0 digits).1 : Int) := by
  have hend : ∀ b ∈ (crlf ++ rest).head?, isdigit b = false := by
    rintro b ⟨⟩
    decide
  rw [headerNumber, List.append_assoc]
  exact strtoll_digits hne hdigits hend

/-- A header of digits ends where its digits do. -/
theorem crlfIndex_digits {mark : UInt8} (hmark : mark ≠ 13) {digits : Bytes}
    (hdigits : ∀ b ∈ digits, isdigit b = true) (rest : Bytes) :
    crlfIndex (mark :: digits ++ crlf ++ rest) = some (digits.length + 1) := by
  have hcr : 13 ∉ mark :: digits := by
    rw [List.mem_cons, not_or]
    refine ⟨Ne.symm hmark, fun h => ?_⟩
    exact absurd (hdigits 13 h) (by decide)
  exact crlfIndex_line hcr rest

/-- A strict header, and what is in it. -/
theorem StrictHeader.split {p : Bytes} (h : StrictHeader p) :
    p = p.headD 0 :: headerLine p ++ crlf ++ behindHeader p ∧
      headerNumber p = (scanDigits 0 (headerLine p)).1 := by
  obtain ⟨hindex, hne, hdigits, hfits⟩ := h
  have hline : p.take (findCrlf p).toNat = p.headD 0 :: headerLine p := by
    -- the line has digits, so its end is behind the mark
    have hlen : (findCrlf p).toNat ≠ 0 := by
      intro hzero
      rw [headerLine, hzero] at hne
      exact hne rfl
    obtain ⟨i, hi⟩ := Nat.exists_eq_succ_of_ne_zero hlen
    cases p with
    | nil => cases hindex
    | cons b p =>
      rw [headerLine, hi]
      rfl
  have hsplit := crlfIndex_split hindex
  rw [hline] at hsplit
  refine ⟨hsplit, ?_⟩
  -- the number is taken as it is written
  rw [hsplit, headerNumber_eq hne hdigits, ← hsplit]
  exact min_eq_right hfits

/-- A header of digits is strict, when the parser sees where it ends and takes the number. -/
theorem strictHeader_of_digits {mark : UInt8} (hmark : mark ≠ 13) {digits rest : Bytes} {n : ℕ}
    (hdigits : IsNumeral n digits)
    (hline : (findCrlf (mark :: digits ++ crlf ++ rest)).toNat = digits.length + 1)
    (hnumber : (headerNumber (mark :: digits ++ crlf ++ rest)).toNat = n) :
    StrictHeader (mark :: digits ++ crlf ++ rest) ∧
      behindHeader (mark :: digits ++ crlf ++ rest) = rest := by
  obtain ⟨hne, hall, hvalue⟩ := hdigits
  have hlen : (mark :: digits).length = digits.length + 1 := rfl
  have hheaderLine : headerLine (mark :: digits ++ crlf ++ rest) = digits := by
    rw [headerLine, hline, ← hlen, List.append_assoc, List.take_left]
    rfl
  rw [headerNumber_eq hne hall] at hnumber
  refine ⟨⟨?_, ?_, ?_, ?_⟩, ?_⟩
  · rw [hline, crlfIndex_digits hmark hall]
  · rwa [hheaderLine]
  · rwa [hheaderLine]
  · rw [hheaderLine]
    rw [LLONG_MAX] at hnumber ⊢
    omega
  · have hlen' : (mark :: digits ++ crlf).length = digits.length + 1 + 2 := by
      rw [List.length_append, hlen]
      rfl
    rw [behindHeader, hline, ← hlen', List.drop_left]

/-! ### Where the position does not fit -/

/-- Behind a header whose end the parser sees too early come digits, and what it takes for the
payload, when that is the payload, repeats itself: there is no mark in it, nor shortly after. -/
theorem digits_periodic {mark : UInt8} {digits rest : Bytes}
    (hdigits : ∀ b ∈ digits, isdigit b = true) {i k : ℕ} (hi : i < digits.length + 1)
    (hsame : ∀ t < k, (mark :: digits ++ crlf ++ rest)[i + 2 + t]? = rest[t]?) (t : ℕ)
    (ht : t < k + (digits.length + 1 - i)) :
    (mark :: digits ++ crlf ++ rest)[i + 2 + t]? ≠ some 36 := by
  have hlen : (mark :: digits ++ crlf).length = digits.length + 3 := by
    rw [List.length_append]
    rfl
  -- induction on the position: what follows the header lies further in front, too
  induction t using Nat.strong_induction_on with
  | h t ih =>
    by_cases hline : i + 2 + t < digits.length + 3
    · -- still in the header, behind its mark
      rw [List.getElem?_append_left (hlen.symm ▸ hline)]
      intro hmem
      have hmark : i + 2 + t = i + 1 + t + 1 := by omega
      rw [List.cons_append, hmark, List.getElem?_cons_succ] at hmem
      rcases List.mem_append.mp (List.mem_of_getElem? hmem) with hdigit | hend
      · exact absurd (hdigits 36 hdigit) (by decide)
      · exact absurd hend (by decide)
    · -- in what follows it, which is the same as before
      obtain ⟨u, hu⟩ : ∃ u, t = u + (digits.length + 1 - i) :=
        ⟨t - (digits.length + 1 - i), by omega⟩
      have hpos : i + 2 + t - (digits.length + 3) = u := by omega
      rw [List.getElem?_append_right (by omega), hlen, hpos, ← hsame u (by omega)]
      exact ih u (by omega) (by omega)

/-- The parser sees where a header of digits ends, if the mark of an argument follows the
payload that it takes. -/
theorem findCrlf_of_mark {mark : UInt8} (hmark : mark ≠ 13) {digits rest : Bytes}
    (hdigits : ∀ b ∈ digits, isdigit b = true) {k : ℕ}
    (hline : 0 ≤ findCrlf (mark :: digits ++ crlf ++ rest))
    (hsame : ∀ t < k, (behindHeader (mark :: digits ++ crlf ++ rest))[t]? = rest[t]?)
    {d : ℕ} (hd : d ≤ 2)
    (hnext : (behindHeader (mark :: digits ++ crlf ++ rest))[k + d]? = some 36) :
    (findCrlf (mark :: digits ++ crlf ++ rest)).toNat = digits.length + 1 := by
  -- if the parser saw an earlier end, the mark would be in what repeats itself
  refine (findCrlf_cases (crlfIndex_digits hmark hdigits rest) hline).resolve_right
    fun hearly => ?_
  rw [behindHeader, List.getElem?_drop] at hnext
  have hsame' : ∀ t < k, (mark :: digits ++ crlf ++ rest)[
      (findCrlf (mark :: digits ++ crlf ++ rest)).toNat + 2 + t]? = rest[t]? := by
    intro t ht
    rw [← hsame t ht, behindHeader, List.getElem?_drop]
  exact digits_periodic hdigits (by omega) hsame' (k + d) (by omega) hnext

/-! ### Arguments -/

/-- The argument as it lies in the buffer. -/
theorem IsItem.getElem? {p item rest : Bytes} (h : IsItem p item rest) {t : ℕ}
    (ht : t < item.length) : (behindHeader p)[t]? = item[t]? := by
  rw [h.length_item] at ht
  rw [← h.item_eq, List.getElem?_take_of_lt ht]

/-- An argument that starts with its mark. -/
theorem IsItem.getElem_zero {p item rest : Bytes} (h : IsItem p item rest) : p[0]? = some 36 := by
  cases p with
  | nil => exact absurd h.mark (by decide)
  | cons b p => exact congrArg some h.mark

/-- The parser sees where the header of an argument ends, when it is in front of the right
payload, and either the next argument follows, or as much as should. -/
theorem IsItem.line_eq {p item q digits more : Bytes} (h : IsItem p item q)
    (hdigits : ∀ b ∈ digits, isdigit b = true)
    (hp : p = 36 :: digits ++ crlf ++ (item ++ crlf ++ more))
    (hnext : q = more ∨ q[0]? = some 36) : (findCrlf p).toNat = digits.length + 1 := by
  have hlen := h.length_item
  rcases hnext with rfl | hmark
  · -- the same bytes are left, so as many are in front of them
    have hp' := congrArg List.length hp
    have hq := congrArg List.length h.rest_eq
    have hpayload := h.payload
    simp only [List.length_append, List.length_cons, List.length_drop, behindHeader]
      at hp' hq hpayload
    have hcrlf : crlf.length = 2 := rfl
    omega
  · -- the mark is behind the payload and the two bytes that are skipped
    have hline := h.line
    have hbehind : ∀ t < item.length, (behindHeader p)[t]? = item[t]? := fun t ht => h.getElem? ht
    rw [← h.rest_eq, List.getElem?_drop, ← hlen] at hmark
    subst hp
    have hsame : ∀ t < item.length, (behindHeader
        (36 :: digits ++ crlf ++ (item ++ crlf ++ more)))[t]? = (item ++ crlf ++ more)[t]? := by
      intro t ht
      rw [hbehind t ht, List.append_assoc, List.getElem?_append_left ht]
    exact findCrlf_of_mark (by decide) hdigits hline hsame le_rfl hmark

/-- **The arguments** are strict if and only if they are bulk strings of the protocol. -/
theorem eachItem_strict_iff {n : ℕ} {p rest : Bytes} {args items : List Bytes}
    (h : respItems n p args = (.ok, args ++ items, rest)) :
    EachItem StrictItem n p ↔ ∃ bytes, RespBulks items bytes ∧ p = bytes ++ rest := by
  induction n generalizing p args items with
  | zero =>
    obtain ⟨-, h⟩ := Prod.mk.inj h
    obtain ⟨hargs, rfl⟩ := Prod.mk.inj h
    obtain rfl : items = [] := List.append_right_eq_self.mp hargs.symm
    exact iff_of_true trivial ⟨[], .nil, rfl⟩
  | succ n ih =>
    obtain ⟨item, q, hitem, h⟩ := respItems_ok_succ h
    -- the loop put this argument first
    obtain ⟨items, rfl⟩ : ∃ items', items = item :: items' := by
      obtain ⟨items', hitems'⟩ := prefix_of_respItems h
      rw [List.append_assoc, List.append_cancel_left_eq] at hitems'
      exact ⟨items', hitems'.symm⟩
    have happ : args ++ item :: items = args ++ [item] ++ items := by
      rw [List.append_assoc, List.singleton_append]
    rw [happ] at h
    rw [eachItem_succ hitem, ih h]
    have hlen := hitem.length_item
    constructor
    · rintro ⟨⟨hheader, hend⟩, bytes, hbulks, rfl⟩
      obtain ⟨hsplit, hnumber⟩ := hheader.split
      rw [hitem.mark] at hsplit
      -- the payload, the line end, and the rest
      have hbehind : behindHeader p = item ++ crlf ++ (bytes ++ rest) := by
        rw [← hitem.item_eq, ← hend, ← hitem.rest_eq, ← List.drop_drop, List.append_assoc,
          List.take_append_drop, List.take_append_drop]
      have hvalue : (scanDigits 0 (headerLine p)).1 = item.length := by
        rw [hlen, hnumber, Int.toNat_natCast]
      refine ⟨_, .cons ⟨hheader.2.1, hheader.2.2.1, hvalue⟩ hbulks, ?_⟩
      refine hsplit.trans ?_
      rw [hbehind]
      simp only [List.append_assoc]
    · rintro ⟨_, hbulks, hp⟩
      cases hbulks with
      | @cons digits _ bytes _ hdigits hbulks =>
        rw [List.append_assoc, List.append_assoc (item ++ crlf)] at hp
        have hline : (findCrlf p).toNat = digits.length + 1 := by
          -- the parser found the end of this header, as the next argument shows
          refine hitem.line_eq hdigits.2.1 hp ?_
          cases n with
          | zero =>
            -- nothing is left to parse, and the lengths decide
            obtain ⟨-, h⟩ := Prod.mk.inj h
            obtain ⟨hnil, rfl⟩ := Prod.mk.inj h
            obtain rfl : items = [] := List.append_right_eq_self.mp hnil.symm
            cases hbulks
            exact Or.inl rfl
          | succ n =>
            obtain ⟨_, _, hnext, -⟩ := respItems_ok_succ h
            exact Or.inr hnext.getElem_zero
        subst hp
        obtain ⟨hheader, hbehind⟩ :=
          strictHeader_of_digits (by decide) hdigits hline hlen.symm
        have hrest := hitem.rest_eq
        have hend : (item ++ crlf).length = item.length + 2 := List.length_append
        rw [← hlen, hbehind, ← hend, List.drop_left] at hrest
        refine ⟨⟨hheader, ?_⟩, bytes, hbulks, hrest.symm⟩
        rw [hbehind, ← hlen, List.append_assoc, List.drop_left]
        rfl

/-! ### Commands -/

/-- The header of the array and the arguments behind it. -/
theorem strictArray_iff {buf rest : Bytes} {args : List Bytes} (hstar : buf.headD 0 = 42)
    (hline : 0 ≤ findCrlf buf) (hnumber : 0 < headerNumber buf)
    (h : respItems (headerNumber buf).toNat (behindHeader buf) [] = (.ok, args, rest)) :
    StrictArray buf ↔ ∃ bytes, IsRespArray args bytes ∧ buf = bytes ++ rest := by
  have hitems : EachItem StrictItem (headerNumber buf).toNat (behindHeader buf) ↔
      ∃ bytes, RespBulks args bytes ∧ behindHeader buf = bytes ++ rest :=
    @eachItem_strict_iff _ _ _ [] _ h
  have hlen : args.length = (headerNumber buf).toNat :=
    (length_of_respItems h).trans (Nat.zero_add _)
  rw [StrictArray, hitems]
  constructor
  · rintro ⟨hheader, bytes, hbulks, hbehind⟩
    obtain ⟨hsplit, hvalue⟩ := hheader.split
    rw [hstar, hbehind] at hsplit
    have hnumeral : IsNumeral args.length (headerLine buf) := by
      refine ⟨hheader.2.1, hheader.2.2.1, ?_⟩
      rw [hlen, hvalue, Int.toNat_natCast]
    refine ⟨_, ⟨_, bytes, hnumeral, hbulks, rfl⟩, hsplit.trans ?_⟩
    simp only [List.append_assoc]
  · rintro ⟨_, ⟨digits, bytes, hdigits, hbulks, rfl⟩, hbuf⟩
    rw [List.append_assoc] at hbuf
    have hend : (findCrlf buf).toNat = digits.length + 1 := by
      -- an argument is behind the header
      obtain ⟨n, hn⟩ := headerNumber_succ hnumber
      rw [hn] at h
      obtain ⟨_, _, hnext, -⟩ := respItems_ok_succ h
      have hmark := hnext.getElem_zero
      subst hbuf
      exact findCrlf_of_mark (k := 0) (d := 0) (by decide) hdigits.2.1 hline
        (fun t ht => absurd ht (Nat.not_lt_zero t)) (Nat.zero_le 2) hmark
    subst hbuf
    obtain ⟨hheader, hbehind⟩ := strictHeader_of_digits (by decide) hdigits hend hlen.symm
    exact ⟨hheader, bytes, hbulks, hbehind⟩

/-- **The array parser and the protocol.** Of a buffer that begins with a star and that
`resp_parse` accepts, the consumed bytes are an array of the protocol with the arguments as its
items, if and only if its header lines are digits and a line end follows each payload. -/
theorem resp_array_strict_iff {buf : Bytes} (hstar : buf.head? = some 42) {args : List Bytes}
    {consumed : ℕ} (h : respParse buf = ⟨.ok, args, consumed⟩) :
    IsRespArray args (buf.take consumed) ↔ StrictArray buf := by
  obtain ⟨hline, hnumber, rest, hitems, rfl⟩ := respParse_array_ok hstar h
  have hhead : buf.headD 0 = 42 := by
    cases buf with
    | nil => cases hstar
    | cons b buf => exact Option.some.inj hstar
  -- what is left of the buffer is its end
  obtain ⟨front, hfront⟩ : rest <:+ buf := by
    have hsuffix := suffix_of_respItems hitems
    rw [behindHeader] at hsuffix
    exact hsuffix.trans (List.drop_suffix _ _)
  have htake : buf.take (buf.length - rest.length) = front := by
    rw [← hfront, List.length_append, Nat.add_sub_cancel, List.take_left]
  rw [strictArray_iff hhead hline hnumber hitems, htake, ← hfront]
  constructor
  · exact fun harray => ⟨front, harray, rfl⟩
  · rintro ⟨bytes, harray, hbytes⟩
    rwa [List.append_cancel_right hbytes]

/-- An array of one argument, with two other bytes where the line end of its payload should be:
it is accepted. -/
theorem resp_array_accepts_junk :
    let buf := ascii "*1" ++ crlf ++ ascii "$1" ++ crlf ++ ascii "aXY"
    respParse buf = ⟨.ok, [ascii "a"], 11⟩ ∧ ¬IsRespArray [ascii "a"] (buf.take 11) := by
  intro buf
  have hparse : respParse buf = ⟨.ok, [ascii "a"], 11⟩ := rfl
  refine ⟨hparse, fun harray => ?_⟩
  obtain ⟨hline, hnumber, rest, hitems, hconsumed⟩ := respParse_array_ok (by decide) hparse
  have hrest : rest = [] := by
    have hlen : buf.length = 11 := by decide
    exact List.length_eq_zero_iff.mp (by omega)
  subst hrest
  have hstrict : StrictArray buf :=
    (strictArray_iff (by decide) hline hnumber hitems).mpr ⟨_, harray, by decide⟩
  exact absurd hstrict (by decide +kernel)

/-- An array of three arguments, one of them empty and one with a line end in it, in front of the
next command. -/
theorem resp_array_strict_three :
    let buf := ascii "*3" ++ crlf ++ ascii "$3" ++ crlf ++ ascii "SET" ++ crlf ++ ascii "$0" ++
      crlf ++ crlf ++ ascii "$4" ++ crlf ++ ascii "a" ++ crlf ++ ascii "b" ++ crlf ++ ascii "*1"
    respParse buf = ⟨.ok, [ascii "SET", [], ascii "a" ++ crlf ++ ascii "b"], 29⟩ ∧
      IsRespArray [ascii "SET", [], ascii "a" ++ crlf ++ ascii "b"] (buf.take 29) := by
  intro buf
  have hargs : (respParse buf).args = [ascii "SET", [], ascii "a" ++ crlf ++ ascii "b"] := by
    decide +kernel
  have hend : (respParse buf).status = .ok ∧ (respParse buf).consumed = 29 := by decide +kernel
  have hparse : respParse buf = ⟨.ok, [ascii "SET", [], ascii "a" ++ crlf ++ ascii "b"], 29⟩ := by
    rw [← hargs, ← hend.1, ← hend.2]
  have hstar : buf.head? = some 42 := by decide +kernel
  exact ⟨hparse, (resp_array_strict_iff hstar hparse).mpr (by decide +kernel)⟩

end Minired
