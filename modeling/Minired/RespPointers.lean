import Minired.RespItem
import Minired.Server

/-!
# The parser on its buffer

`resp_parse` walks over the buffer with a pointer `p` and a count `rem` of the bytes behind it,
and advances both by numbers that the client chooses. Here it is written with indices into the
buffer of a `std::string`, whose NUL may be read and nothing behind it. Every byte that is looked
at and every range that is copied is checked, a subtraction from a `size_t` that would wrap and an
addition of `int`s that would overflow are faults, and so is a pointer that is no longer `rem`
bytes in front of the end (`Cursor.advance`).

**`respParseAt_eq`**: on a buffer of less than `2 ^ 31` bytes there is no fault, and the result is
that of `respParse`, which works on the list of the bytes that are left. The invariant of the loop
is `Cursor.At`: these bytes are behind `p`, and `rem` is their number.

The loop of `handle_read` is treated in the same way (`parseLoopAt`): it is a fault if a command
is dispatched and `read_buf` does not get shorter, or if the loop does not come to its end. No
buffer makes it do so (`parseLoopAt_eq`). **`resp_parse_safe`** puts the results together.
-/

namespace Minired

open Relational

/-! ### The checks -/

/-- What must not happen: a byte outside the buffer, a `size_t` that wraps, an `int` that
overflows, a pointer that is not `rem` bytes in front of the end, a command that takes nothing
off `read_buf`, a loop that goes on. -/
inductive ParseFault
  | outside
  | underflow
  | overflow
  | astray
  | stuck
  | unfinished
  deriving DecidableEq, Repr

/-- A value, or what must not happen. -/
abbrev Checked := Except ParseFault

/-- `s[i]`; the NUL behind the last byte of a string may be read. -/
def charAt (s : Bytes) (i : ℕ) : Checked UInt8 :=
  if i ≤ s.length then .ok (s.getD i 0) else .error .outside

/-- `n` bytes that are copied from `s + i`. -/
def copyAt (s : Bytes) (i n : ℕ) : Checked Bytes :=
  if i + n ≤ s.length then .ok ((s.drop i).take n) else .error .outside

/-- `strtol` from `s + i`, which reads up to the NUL at most. -/
def strtolAt (s : Bytes) (i : ℕ) : Checked Int :=
  if i ≤ s.length then .ok (strtoll (s.drop i)).1 else .error .outside

/-- A difference of `size_t`s. -/
def sizeSub (a b : ℕ) : Checked ℕ := if b ≤ a then .ok (a - b) else .error .underflow

/-- A sum of `int`s. -/
def intAdd (a b : Int) : Checked Int :=
  if -2 ^ 31 ≤ a + b ∧ a + b < 2 ^ 31 then .ok (a + b) else .error .overflow

/-- `p`, as an index, and `rem`. -/
structure Cursor where
  p : ℕ
  rem : ℕ

/-- `p += k; rem -= k`. -/
def Cursor.advance (buf : Bytes) (c : Cursor) (k : ℕ) : Checked Cursor := do
  let rem ← sizeSub c.rem k
  if c.p + k + rem = buf.length then return ⟨c.p + k, rem⟩ else throw .astray

/-! ### The parser -/

/-- The loop of `find_crlf` with `n` iterations to come. -/
def crlfLoop (buf : Bytes) (p : ℕ) : ℕ → ℕ → Checked Int
  | 0, _ => return -1
  | n + 1, i => do
    let b ← charAt buf (p + i)
    if b = 13 then do
      let c ← charAt buf (p + (i + 1))
      if c = 10 then return (i : Int).bmod (2 ^ 32) else crlfLoop buf p n (i + 1)
    else crlfLoop buf p n (i + 1)

/-- `find_crlf`. -/
def findCrlfAt (buf : Bytes) (p len : ℕ) : Checked Int := crlfLoop buf p (len - 1) 0

/-- `while (pos < line.size() && q(line[pos])) pos++`, with at most as many iterations as the first
number says. -/
def skipWhile (line : Bytes) (q : UInt8 → Bool) : ℕ → ℕ → Checked ℕ
  | 0, pos => if pos < line.length then throw .unfinished else return pos
  | n + 1, pos =>
    if pos < line.length then do
      let b ← charAt line pos
      if q b then skipWhile line q n (pos + 1) else return pos
    else return pos

/-- The loop over the words of an inline command. -/
def inlineLoopAt (line : Bytes) : ℕ → ℕ → List Bytes → Checked (List Bytes)
  | 0, pos, args => if pos < line.length then throw .unfinished else return args
  | fuel + 1, pos, args =>
    if pos < line.length then do
      let pos ← skipWhile line (· = 32) line.length pos
      if pos ≥ line.length then return args
      else do
        let stop ← skipWhile line (· ≠ 32) line.length pos
        let word ← copyAt line pos (← sizeSub stop pos)
        inlineLoopAt line fuel stop (args ++ [word])
    else return args

/-- An inline command. -/
def respInlineAt (buf : Bytes) : Checked RespResult := do
  let crlf ← findCrlfAt buf 0 buf.length
  if crlf < 0 then return ⟨.incomplete, [], 0⟩
  else do
    let line ← copyAt buf 0 crlf.toNat
    let args ← inlineLoopAt line line.length 0 []
    if args = [] then return ⟨.error, [], 0⟩
    else return ⟨.ok, args, (← intAdd crlf 2).toNat⟩

/-- The loop over the arguments, with the number of those to come. The sum of the length and two
is taken modulo `2 ^ 64`. -/
def respItemsAt (buf : Bytes) : ℕ → Cursor → List Bytes → Checked (RespStatus × List Bytes × Cursor)
  | 0, c, args => return (.ok, args, c)
  | n + 1, c, args =>
    if c.rem < 3 then return (.incomplete, args, c)
    else do
      if (← charAt buf c.p) ≠ 36 then return (.error, args, c)
      else do
        let lenCrlf ← findCrlfAt buf c.p c.rem
        if lenCrlf < 0 then return (.incomplete, args, c)
        else do
          let slen ← strtolAt buf (c.p + 1)
          if slen < 0 then return (.error, args, c)
          else do
            let c ← c.advance buf (← intAdd lenCrlf 2).toNat
            let size := (slen.toNat + 2) % 2 ^ 64
            if c.rem < size then return (.incomplete, args, c)
            else do
              let item ← copyAt buf c.p slen.toNat
              respItemsAt buf n (← c.advance buf size) (args ++ [item])

/-- `resp_parse` behind its first test. -/
def respArrayAt (buf : Bytes) : Checked RespResult := do
  let crlf ← findCrlfAt buf 0 buf.length
  if crlf < 0 then return ⟨.incomplete, [], 0⟩
  else do
    if (← charAt buf 0) ≠ 42 then return ⟨.error, [], 0⟩
    else do
      let argc ← strtolAt buf 1
      if argc ≤ 0 then return ⟨.error, [], 0⟩
      else do
        let c ← Cursor.advance buf ⟨0, buf.length⟩ (← intAdd crlf 2).toNat
        match ← respItemsAt buf argc.toNat c [] with
        | (.ok, args, c) => return ⟨.ok, args, ← sizeSub buf.length c.rem⟩
        | (status, args, _) => return ⟨status, args, 0⟩

/-- `resp_parse`. -/
def respParseAt (buf : Bytes) : Checked RespResult :=
  if buf.length = 0 then return ⟨.incomplete, [], 0⟩
  else do
    if (← charAt buf 0) ≠ 42 then respInlineAt buf else respArrayAt buf

/-! ### No check fails -/

variable {buf line : Bytes} {c : Cursor}

/-- A step that succeeds, in front of the rest. -/
theorem checked_bind {α β : Type} (a : α) (f : α → Checked β) :
    ((Except.ok a : Checked α) >>= f) = f a := rfl

/-- The byte at the front of what is left. -/
theorem charAt_of_drop {i : ℕ} {b : UInt8} {rest : Bytes} (h : buf.drop i = b :: rest) :
    charAt buf i = .ok b := by
  have hlt : i < buf.length := by
    by_contra hge
    rw [List.drop_eq_nil_of_le (not_lt.mp hge)] at h
    cases h
  have hb : buf.getD i 0 = b := by
    rw [List.drop_eq_getElem_cons hlt] at h
    rw [List.getD_eq_getElem _ _ hlt]
    exact (List.cons.inj h).1
  rw [charAt, if_pos hlt.le, hb]

/-- `find_crlf` with its result as a function of the first CRLF. -/
theorem findCrlf_eq_elim (s : Bytes) :
    findCrlf s = (crlfIndex s).elim (-1) fun j => (j : Int).bmod (2 ^ 32) := by
  rw [findCrlf]
  cases crlfIndex s with
  | none => rw [Option.elim_none]
  | some j => rw [Option.elim_some]

/-- The loop finds the first line end behind `i`, and `i` is counted from `p`. -/
theorem crlfLoop_eq (p n i : ℕ) (hn : (buf.drop (p + i)).length - 1 = n) :
    crlfLoop buf p n i = .ok ((crlfIndex (buf.drop (p + i))).elim (-1) fun j =>
      ((i + j : ℕ) : Int).bmod (2 ^ 32)) := by
  induction n generalizing i with
  | zero =>
    -- a single byte is no line end
    rcases hrest : buf.drop (p + i) with _ | ⟨b, _ | ⟨c, rest⟩⟩
    · rfl
    · rfl
    · rw [hrest] at hn
      exact absurd hn (Nat.succ_ne_zero _)
  | succ n ih =>
    obtain ⟨b, c, rest, hrest⟩ : ∃ b c rest, buf.drop (p + i) = b :: c :: rest := by
      rcases hrest : buf.drop (p + i) with _ | ⟨b, _ | ⟨c, rest⟩⟩
      · rw [hrest] at hn
        cases hn
      · rw [hrest] at hn
        cases hn
      · exact ⟨b, c, rest, rfl⟩
    have hnext : buf.drop (p + (i + 1)) = c :: rest := by
      rw [← Nat.add_assoc, ← List.drop_drop, hrest]
      rfl
    have hlater := ih (i + 1) (by
      rw [hrest] at hn
      rw [hnext]
      exact Nat.succ.inj hn)
    rw [hnext] at hlater
    -- what is found behind the first byte, counted from the first byte
    have hshift : ((crlfIndex (c :: rest)).elim (-1 : Int) fun j =>
          ((i + 1 + j : ℕ) : Int).bmod (2 ^ 32)) =
        ((crlfIndex (c :: rest)).map (· + 1)).elim (-1) fun j =>
          ((i + j : ℕ) : Int).bmod (2 ^ 32) := by
      cases crlfIndex (c :: rest) with
      | none => rw [Option.map_none, Option.elim_none, Option.elim_none]
      | some j =>
        rw [Option.map_some, Option.elim_some, Option.elim_some, Nat.add_right_comm, Nat.add_assoc]
    rw [crlfLoop, charAt_of_drop hrest, checked_bind, charAt_of_drop hnext, checked_bind, hlater,
      hrest, crlfIndex, hshift]
    by_cases hb : b = 13
    · by_cases hc : c = 10
      · rw [if_pos hb, if_pos hc, if_pos ⟨hb, hc⟩, Option.elim_some, Nat.add_zero]
        rfl
      · rw [if_pos hb, if_neg hc, if_neg fun h => hc h.2]
    · rw [if_neg hb, if_neg fun h => hb h.1]

/-- **`find_crlf`** stays in its buffer. -/
theorem findCrlfAt_eq {p len : ℕ} (hlen : p + len = buf.length) :
    findCrlfAt buf p len = .ok (findCrlf (buf.drop p)) := by
  have hn : (buf.drop (p + 0)).length - 1 = len - 1 := by
    rw [Nat.add_zero, List.length_drop]
    omega
  rw [findCrlfAt, crlfLoop_eq p (len - 1) 0 hn, findCrlf_eq_elim, Nat.add_zero]
  simp only [Nat.zero_add]

/-! ### Inline commands -/

/-- What is left behind the bytes that are skipped. -/
theorem drop_length_takeWhile (q : UInt8 → Bool) (s : Bytes) :
    s.drop (s.takeWhile q).length = s.dropWhile q := by
  have hsplit : s.takeWhile q ++ s.dropWhile q = s := List.takeWhile_append_dropWhile
  calc s.drop (s.takeWhile q).length
      = (s.takeWhile q ++ s.dropWhile q).drop (s.takeWhile q).length := by rw [hsplit]
    _ = s.dropWhile q := List.drop_left

/-- The bytes that are skipped. -/
theorem take_length_takeWhile (q : UInt8 → Bool) (s : Bytes) :
    s.take (s.takeWhile q).length = s.takeWhile q :=
  (List.prefix_iff_eq_take.mp (List.takeWhile_prefix q)).symm

/-- The loop stops behind the bytes that it skips. -/
theorem skipWhile_eq (q : UInt8 → Bool) (n pos : ℕ) (hn : line.length ≤ pos + n) :
    skipWhile line q n pos = .ok (pos + ((line.drop pos).takeWhile q).length) := by
  induction n generalizing pos with
  | zero =>
    rw [Nat.add_zero] at hn
    rw [skipWhile, if_neg (not_lt.mpr hn), List.drop_eq_nil_of_le hn]
    rfl
  | succ n ih =>
    rw [skipWhile]
    by_cases hlt : pos < line.length
    · have hdrop := List.drop_eq_getElem_cons hlt
      rw [if_pos hlt, charAt_of_drop hdrop, checked_bind, ih (pos + 1) (by omega), hdrop,
        List.takeWhile_cons]
      split
      · rw [List.length_cons, Nat.add_right_comm, Nat.add_assoc]
      · rfl
    · rw [if_neg hlt, List.drop_eq_nil_of_le (not_lt.mp hlt)]
      rfl

/-- A copy from inside the buffer. -/
theorem copyAt_of_le {i n : ℕ} (h : i + n ≤ buf.length) :
    copyAt buf i n = .ok ((buf.drop i).take n) := if_pos h

/-- A subtraction that does not wrap. -/
theorem sizeSub_of_le {a b : ℕ} (h : b ≤ a) : sizeSub a b = .ok (a - b) := if_pos h

/-- **The words of a line** are found inside it. -/
theorem inlineLoopAt_eq (fuel pos : ℕ) (hfuel : line.length ≤ pos + fuel) (args : List Bytes) :
    inlineLoopAt line fuel pos args = .ok (args ++ inlineLoop fuel (line.drop pos)) := by
  induction fuel generalizing pos args with
  | zero =>
    rw [inlineLoopAt, if_neg (by omega), inlineLoop, List.append_nil]
    rfl
  | succ fuel ih =>
    rw [inlineLoopAt, inlineLoop]
    by_cases hlt : pos < line.length
    · rw [if_pos hlt, skipWhile_eq _ line.length pos (Nat.le_add_left ..), checked_bind]
      -- the first byte behind the blanks, if there is one
      obtain ⟨start, hstart⟩ : ∃ start, start =
        pos + ((line.drop pos).takeWhile (· = 32)).length := ⟨_, rfl⟩
      have hdrop : line.drop start = (line.drop pos).dropWhile (· = 32) := by
        rw [hstart, ← List.drop_drop, drop_length_takeWhile]
      rw [← hstart, ← hdrop]
      rcases hword : line.drop start with _ | ⟨b, rest⟩
      · rw [if_pos (List.drop_eq_nil_iff.mp hword), List.append_nil]
        rfl
      · have hin : ¬start ≥ line.length := fun h => by
          rw [List.drop_eq_nil_of_le h] at hword
          cases hword
        have hlen : ((b :: rest).takeWhile (· ≠ 32)).length ≤ line.length - start := by
          rw [← List.length_drop, hword]
          exact (List.takeWhile_prefix _).length_le
        -- a word is at least a byte long
        have hblank : b ≠ 32 := by
          intro hb
          have hhead := List.head?_dropWhile_not (· = (32 : UInt8)) (line.drop pos)
          rw [← hdrop, hword] at hhead
          exact absurd hhead (by simp [hb])
        have hpos : 0 < ((b :: rest).takeWhile (· ≠ 32)).length := by
          rw [List.takeWhile_cons_of_pos (by simp [hblank])]
          exact Nat.succ_pos _
        have hle : pos ≤ start := hstart ▸ Nat.le_add_right ..
        have hstop : line.drop (start + ((b :: rest).takeWhile (· ≠ 32)).length) =
            (b :: rest).dropWhile (· ≠ 32) := by
          rw [← List.drop_drop, hword, drop_length_takeWhile]
        rw [if_neg hin, skipWhile_eq _ line.length start (Nat.le_add_left ..), checked_bind, hword,
          sizeSub_of_le (Nat.le_add_right ..), checked_bind, Nat.add_sub_cancel_left,
          copyAt_of_le (by omega), checked_bind, ih _ (by omega), hword, hstop,
          List.append_assoc]
        rw [take_length_takeWhile]
        rfl
    · rw [if_neg hlt, List.drop_eq_nil_of_le (not_lt.mp hlt), List.dropWhile_nil, List.append_nil]
      rfl

/-! ### Arguments -/

/-- **The invariant.** What is left of the buffer is behind `p`, and `rem` is its length. -/
structure Cursor.At (buf : Bytes) (c : Cursor) (left : Bytes) : Prop where
  inside : c.p ≤ buf.length
  drop_eq : buf.drop c.p = left
  rem_eq : c.rem = left.length

namespace Cursor.At

variable {p : Bytes}

/-- In front of the buffer. -/
theorem start (buf : Bytes) : Cursor.At buf ⟨0, buf.length⟩ buf := ⟨Nat.zero_le _, rfl, rfl⟩

/-- `rem` bytes behind `p` the buffer ends. -/
theorem length_eq (hc : c.At buf p) : c.p + p.length = buf.length := by
  have hin := hc.inside
  rw [← hc.drop_eq, List.length_drop]
  omega

/-- The byte at `p`. -/
theorem first {b : UInt8} {rest : Bytes} (hc : c.At buf (b :: rest)) :
    charAt buf c.p = .ok b := charAt_of_drop hc.drop_eq

/-- The first line end behind `p`. -/
theorem lineEnd (hc : c.At buf p) : findCrlfAt buf c.p p.length = .ok (findCrlf p) := by
  rw [findCrlfAt_eq hc.length_eq, hc.drop_eq]

/-- The number behind a mark. -/
theorem number (hc : c.At buf p) (hpos : 0 < p.length) :
    strtolAt buf (c.p + 1) = .ok (strtoll (p.drop 1)).1 := by
  have hlen := hc.length_eq
  rw [strtolAt, if_pos (by omega), ← List.drop_drop, hc.drop_eq]

/-- The bytes behind `p`. -/
theorem copied (hc : c.At buf p) {n : ℕ} (hn : n ≤ p.length) :
    copyAt buf c.p n = .ok (p.take n) := by
  have hlen := hc.length_eq
  rw [copyAt_of_le (by omega), hc.drop_eq]

/-- `p` and `rem` move together. -/
theorem advance (hc : c.At buf p) {k : ℕ} (hk : k ≤ p.length) :
    ∃ c', c.advance buf k = .ok c' ∧ c'.At buf (p.drop k) := by
  have hlen := hc.length_eq
  have hrem := hc.rem_eq
  refine ⟨⟨c.p + k, c.rem - k⟩, ?_, ?_, ?_, ?_⟩
  · rw [Cursor.advance, sizeSub_of_le (hrem ▸ hk), checked_bind, if_pos (by omega)]
    rfl
  · show c.p + k ≤ buf.length
    omega
  · rw [← List.drop_drop, hc.drop_eq]
  · rw [List.length_drop, hrem]

end Cursor.At

/-- The line end is inside what is left, so the number of bytes up to it is an `int`. -/
theorem intAdd_findCrlf {p : Bytes} (hline : 0 ≤ findCrlf p) (hsize : p.length < 2 ^ 31) :
    intAdd (findCrlf p) 2 = .ok (findCrlf p + 2) ∧ (findCrlf p + 2).toNat = (findCrlf p).toNat + 2 ∧
      (findCrlf p).toNat + 2 ≤ p.length := by
  have hin := (findCrlf_append hline []).2
  exact ⟨if_pos ⟨by omega, by omega⟩, by omega, hin⟩

/-- `strtol` saturates. -/
theorem strtoll_le (s : Bytes) : (strtoll s).1 ≤ LLONG_MAX := by
  rw [strtoll]
  cases scanInt s with
  | none =>
    show (0 : Int) ≤ LLONG_MAX
    decide
  | some v => exact max_le (by decide) (min_le_left _ _)

/-- **The loop over the arguments** keeps the invariant, and does what it does on the bytes. -/
theorem respItemsAt_eq (hsize : buf.length < 2 ^ 31) (n : ℕ) {c : Cursor} {p : Bytes}
    (hc : c.At buf p) (args : List Bytes) :
    ∃ c', c'.At buf (respItems n p args).2.2 ∧ respItemsAt buf n c args =
      .ok ((respItems n p args).1, (respItems n p args).2.1, c') := by
  induction n generalizing c p args with
  | zero => exact ⟨c, hc, rfl⟩
  | succ n ih =>
    have hlen := hc.length_eq
    rw [respItemsAt, respItems, hc.rem_eq]
    dsimp only
    by_cases hshort : p.length < 3
    · rw [if_pos hshort, if_pos hshort]
      exact ⟨c, hc, rfl⟩
    -- the mark
    obtain ⟨b, rest, rfl⟩ : ∃ b rest, p = b :: rest :=
      List.exists_cons_of_length_pos (by omega)
    rw [if_neg hshort, if_neg hshort, hc.first, checked_bind, List.headD_cons]
    by_cases hmark : b ≠ 36
    · rw [if_pos hmark, if_pos hmark]
      exact ⟨c, hc, rfl⟩
    -- the end of the header, and the number in it
    rw [if_neg hmark, if_neg hmark, hc.lineEnd, checked_bind]
    by_cases hline : findCrlf (b :: rest) < 0
    · rw [if_pos hline, if_pos hline]
      exact ⟨c, hc, rfl⟩
    rw [if_neg hline, if_neg hline, hc.number (Nat.succ_pos _), checked_bind]
    by_cases hneg : (strtoll ((b :: rest).drop 1)).1 < 0
    · rw [if_pos hneg, if_pos hneg]
      exact ⟨c, hc, rfl⟩
    -- behind the header
    obtain ⟨hadd, htwo, hin⟩ := intAdd_findCrlf (not_lt.mp hline) (by omega)
    obtain ⟨c₁, hmove₁, hc₁⟩ := hc.advance hin
    have hmod : ((strtoll ((b :: rest).drop 1)).1.toNat + 2) % 2 ^ 64 =
        (strtoll ((b :: rest).drop 1)).1.toNat + 2 := by
      have hle := strtoll_le ((b :: rest).drop 1)
      rw [LLONG_MAX] at hle
      exact Nat.mod_eq_of_lt (by omega)
    rw [if_neg hneg, if_neg hneg, hadd, checked_bind, htwo, hmove₁, checked_bind, hmod,
      hc₁.rem_eq]
    by_cases hpart : ((b :: rest).drop ((findCrlf (b :: rest)).toNat + 2)).length <
        (strtoll ((b :: rest).drop 1)).1.toNat + 2
    · rw [if_pos hpart, if_pos hpart]
      exact ⟨c₁, hc₁, rfl⟩
    -- the payload is copied, and the loop goes on behind it
    obtain ⟨c₂, hmove₂, hc₂⟩ := hc₁.advance (not_lt.mp hpart)
    rw [if_neg hpart, if_neg hpart, hc₁.copied (by omega), checked_bind, hmove₂, checked_bind]
    exact ih hc₂ _

/-! ### Whole commands -/

/-- An inline command is parsed inside the buffer. -/
theorem respInlineAt_eq {b : UInt8} {rest : Bytes} (hb : b ≠ 42)
    (hsize : (b :: rest).length < 2 ^ 31) :
    respInlineAt (b :: rest) = .ok (respParse (b :: rest)) := by
  rw [respInlineAt, findCrlfAt_eq (Nat.zero_add _), checked_bind, List.drop_zero, respParse,
    if_pos hb]
  dsimp only
  by_cases hline : findCrlf (b :: rest) < 0
  · rw [if_pos hline, if_pos hline]
    rfl
  obtain ⟨hadd, htwo, hin⟩ := intAdd_findCrlf (not_lt.mp hline) hsize
  rw [if_neg hline, if_neg hline, copyAt_of_le (by omega), checked_bind, List.drop_zero,
    inlineLoopAt_eq _ 0 (Nat.le_add_left ..), checked_bind, List.drop_zero, List.nil_append,
    ← inlineArgs]
  by_cases hargs : inlineArgs ((b :: rest).take (findCrlf (b :: rest)).toNat) = []
  · rw [if_pos hargs, if_pos hargs]
    rfl
  · rw [if_neg hargs, if_neg hargs, hadd, checked_bind, htwo]
    rfl

/-- An array is parsed inside the buffer. -/
theorem respArrayAt_eq (hstar : buf.head? = some 42) (hsize : buf.length < 2 ^ 31) :
    respArrayAt buf = .ok (respParse buf) := by
  obtain ⟨rest, hb⟩ : ∃ rest, buf = 42 :: rest := List.head?_eq_some_iff.mp hstar
  rw [respArrayAt, findCrlfAt_eq (Nat.zero_add _), checked_bind, List.drop_zero,
    respParse_array hstar]
  by_cases hline : findCrlf buf < 0
  · rw [if_pos hline, if_pos hline]
    rfl
  obtain ⟨hadd, htwo, hin⟩ := intAdd_findCrlf (not_lt.mp hline) hsize
  have hmark : charAt buf 0 = .ok 42 := charAt_of_drop (i := 0) hb
  have hnumber : strtolAt buf 1 = .ok (headerNumber buf) := if_pos (by omega)
  rw [if_neg hline, if_neg hline, hmark, checked_bind, if_neg (by decide), hnumber, checked_bind]
  by_cases hargc : headerNumber buf ≤ 0
  · rw [if_pos hargc, if_pos hargc]
    rfl
  -- the loop over the arguments begins behind the header
  obtain ⟨c, hmove, hc⟩ := (Cursor.At.start buf).advance hin
  obtain ⟨c', hc', hrun⟩ := respItemsAt_eq hsize (headerNumber buf).toNat hc []
  rw [← behindHeader] at hc' hrun
  rw [if_neg hargc, if_neg hargc, hadd, checked_bind, htwo, hmove, checked_bind, hrun,
    checked_bind]
  rcases hitems : respItems (headerNumber buf).toNat (behindHeader buf) [] with
    ⟨_ | _ | _, args, left⟩
  · rw [hitems] at hc'
    have hlen := hc'.length_eq
    dsimp only at hlen ⊢
    rw [hc'.rem_eq, sizeSub_of_le (by dsimp only; omega), checked_bind]
    rfl
  · rfl
  · rfl

/-- **`resp_parse` stays in its buffer**, and does there what it does on the bytes. -/
theorem respParseAt_eq (hsize : buf.length < 2 ^ 31) : respParseAt buf = .ok (respParse buf) := by
  cases buf with
  | nil => rfl
  | cons b rest =>
    rw [respParseAt, if_neg (List.length_cons ▸ Nat.succ_ne_zero _), charAt_of_drop List.drop_zero,
      checked_bind]
    by_cases hb : b ≠ 42
    · rw [if_pos hb, respInlineAt_eq hb hsize]
    · rw [if_neg hb, respArrayAt_eq (by rw [not_not.mp hb]; rfl) hsize]

/-- An inline command is a line with a word. -/
theorem respParse_inline_ok (hinline : buf.head? ≠ some 42) (h : (respParse buf).status = .ok) :
    (respParse buf).args ≠ [] ∧ (respParse buf).consumed ≤ buf.length := by
  cases buf with
  | nil => cases h
  | cons b rest =>
    have hb : b ≠ 42 := fun hb => hinline (congrArg some hb)
    rw [respParse, if_pos hb] at h ⊢
    dsimp only at h ⊢
    split_ifs at h ⊢ with hline hargs
    exact ⟨hargs, (findCrlf_append (not_lt.mp hline) []).2⟩

/-- **A parsed command** has a name, and its bytes are at the front of the buffer. -/
theorem respParse_ok (h : (respParse buf).status = .ok) :
    (respParse buf).args ≠ [] ∧ 1 ≤ (respParse buf).consumed ∧
      (respParse buf).consumed ≤ buf.length := by
  have hpos := respParse_consumed h
  by_cases hstar : buf.head? = some 42
  · -- the array says how many arguments there are
    obtain ⟨hline, hargc, left, hitems, hconsumed⟩ := respParse_array_ok hstar
      (show respParse buf = ⟨.ok, (respParse buf).args, (respParse buf).consumed⟩ by rw [← h])
    have hcount := length_of_respItems hitems
    have hargs : 0 < (respParse buf).args.length := by
      rw [hcount, List.length_nil, Nat.zero_add]
      omega
    exact ⟨List.length_pos_iff.mp hargs, hpos, hconsumed ▸ Nat.sub_le _ _⟩
  · obtain ⟨hargs, hconsumed⟩ := respParse_inline_ok hstar h
    exact ⟨hargs, hpos, hconsumed⟩

/-! ### The loop of the server -/

variable (libc : Libc) (clock : ℕ → Int64)

/-- The loop of `handle_read` over the commands in `read_buf`. Every command that is dispatched
has to take something off it. -/
def parseLoopAt : ℕ → Conn → Checked Conn
  | 0, _ => throw .unfinished
  | fuel + 1, c =>
    if c.readBuf = [] then return c
    else do
      let res ← respParseAt c.readBuf
      match res.status with
      | .incomplete => return c
      | .error =>
        return { c with
          session := { c.session with
            writeBuf := c.session.writeBuf ++ ascii "-ERR protocol error" ++ crlf }
          status := .protocolError }
      | .ok =>
        let r := exec (dispatchCommand libc (clock c.dispatched.length) res.args) c.session
        let left := c.readBuf.drop res.consumed
        let c' := { c with session := r.2, dispatched := c.dispatched ++ [res.args] }
        match r.1 with
        | .error _ => return { c' with status := .crashed }
        | .ok _ =>
          if c.readBuf.length ≤ left.length then throw .stuck
          else
            let c' := { c' with readBuf := left }
            if c'.session.closing then return { c' with status := .quit } else parseLoopAt fuel c'

/-- **The loop of the server** ends, and every command that it dispatches takes something off
`read_buf`. -/
theorem parseLoopAt_eq {fuel : ℕ} {c : Conn} (hsize : c.readBuf.length < 2 ^ 31)
    (hfuel : c.readBuf.length < fuel) :
    parseLoopAt libc clock fuel c = .ok (parseLoop libc clock fuel c) := by
  induction fuel generalizing c with
  | zero => exact absurd hfuel (Nat.not_lt_zero _)
  | succ fuel ih =>
    by_cases hnil : c.readBuf = []
    · rw [parseLoopAt, parseLoop, if_pos hnil, if_pos hnil]
      rfl
    rw [parseLoopAt, if_neg hnil, respParseAt_eq hsize, checked_bind]
    cases loopCase libc clock c with
    | waits hparse =>
      rw [parseLoop_incomplete libc clock hparse, hparse]
      rfl
    | malformed hparse =>
      rw [parseLoop_error libc clock hparse, hparse]
      rfl
    | crashes hparse hexec =>
      rw [parseLoop_crash libc clock hparse hexec, hparse]
      dsimp only
      rw [hexec]
      rfl
    | quits hparse hexec hquit =>
      have hless := length_drop_consumed hparse
      rw [parseLoop_quit libc clock hparse hexec hquit, hparse]
      dsimp only
      rw [hexec]
      dsimp only
      rw [if_neg (not_le.mpr hless), if_pos hquit]
      rfl
    | @continues s hparse hexec hopen =>
      -- what is left is shorter, so there is fuel for it
      have hless := length_drop_consumed hparse
      have hnext := length_next hparse s
      rw [parseLoop_next libc clock hparse hexec hopen, hparse]
      dsimp only
      rw [hexec]
      dsimp only
      rw [if_neg (not_le.mpr hless), if_neg (by rw [hopen]; decide)]
      exact ih (c := c.next s) (by omega) (by omega)

/-- **No buffer harms the parser.** It never looks at a byte outside the buffer and never copies
one, `rem` is the number of the bytes behind `p`, no subtraction wraps, a parsed command has a
name and takes between one byte and all of them, and the loop of the server takes something off
`read_buf` with every command, and ends. -/
theorem resp_parse_safe (buf : Bytes) (hsize : buf.length < 2 ^ 31) :
    respParseAt buf = .ok (respParse buf) ∧
      ((respParse buf).status = .ok → (respParse buf).args ≠ [] ∧ 1 ≤ (respParse buf).consumed ∧
        (respParse buf).consumed ≤ buf.length) ∧
      ∀ (c : Conn) (fuel : ℕ), c.readBuf = buf → buf.length < fuel →
        parseLoopAt libc clock fuel c = .ok (parseLoop libc clock fuel c) := by
  refine ⟨respParseAt_eq hsize, respParse_ok, fun c fuel hread hfuel => ?_⟩
  subst hread
  exact parseLoopAt_eq libc clock hsize hfuel

/-- A command, and behind it a header that promises `2 ^ 63 - 1` bytes. -/
def pingAndHeader : Bytes := ascii "PING" ++ crlf ++ header 42 1 ++ header 36 (2 ^ 63 - 1)

/-- Nothing is read outside these bytes, and the command in front is taken. -/
theorem resp_parse_safe_pingAndHeader :
    respParseAt pingAndHeader = .ok (respParse pingAndHeader) ∧
      ((respParse pingAndHeader).args ≠ [] ∧ 1 ≤ (respParse pingAndHeader).consumed ∧
        (respParse pingAndHeader).consumed ≤ pingAndHeader.length) ∧
      parseLoopAt Libc.plain (fun _ => 0) 64 ⟨Session.fresh, pingAndHeader, [], .connected, false⟩ =
        .ok (parseLoop Libc.plain (fun _ => 0) 64
          ⟨Session.fresh, pingAndHeader, [], .connected, false⟩) := by
  obtain ⟨hparser, hok, hloop⟩ :=
    resp_parse_safe Libc.plain (fun _ => 0) pingAndHeader (by decide)
  exact ⟨hparser, hok (by decide), hloop _ 64 rfl (by decide)⟩

end Minired
