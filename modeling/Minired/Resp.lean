import Minired.Numbers
import Minired.Lib.Framing

/-!
# The request protocol

`resp.cpp` parses a command at the front of a buffer, `resp_parse`, and writes commands,
`resp_bulk` and `resp_array`. The pointer `p` and the number `rem` of bytes behind it are one
list here, the bytes not yet parsed.

`find_crlf` returns an `int`, so a position from `2 ^ 31` on is cut to 32 bits. The lengths in
headers are read by `strtol`, which saturates; it reads on to the end of the buffer, where the
NUL of the `std::string` stops it. The test `rem < (size_t)(slen + 2)` is unsigned.

`resp_frames` is the round trip: a command written by `resp_array` is parsed back, whatever
follows it, and any proper part of it is `INCOMPLETE`. The payloads may hold any bytes,
because only the front of a header is searched for its end.
-/

namespace Minired

open Framing

/-- `RespStatus`. -/
inductive RespStatus
  | ok
  | incomplete
  | error
deriving DecidableEq

/-- `RespResult`. -/
structure RespResult where
  status : RespStatus
  args : List Bytes
  consumed : ℕ

/-- The position of the first CRLF. -/
def crlfIndex : Bytes → Option ℕ
  | b :: c :: rest =>
    if b = 13 ∧ c = 10 then some 0 else (crlfIndex (c :: rest)).map (· + 1)
  | _ => none

/-- `find_crlf`, whose result is an `int`. -/
def findCrlf (buf : Bytes) : Int :=
  match crlfIndex buf with
  | some i => (i : Int).bmod (2 ^ 32)
  | none => -1

/-- The loop that splits an inline command at blanks. -/
def inlineLoop : ℕ → Bytes → List Bytes
  | 0, _ => []
  | fuel + 1, line =>
    match line.dropWhile (· = 32) with
    | [] => []
    | b :: rest =>
      (b :: rest).takeWhile (· ≠ 32) :: inlineLoop fuel ((b :: rest).dropWhile (· ≠ 32))

/-- The arguments of an inline command. Every one takes at least a byte of the line. -/
def inlineArgs (line : Bytes) : List Bytes := inlineLoop line.length line

/-- The loop over the arguments, with the number of those to come: the status, all arguments
read, and what is left of the buffer. -/
def respItems : ℕ → Bytes → List Bytes → RespStatus × List Bytes × Bytes
  | 0, p, args => (.ok, args, p)
  | n + 1, p, args =>
    if p.length < 3 then (.incomplete, args, p)
    else if p.headD 0 ≠ 36 then (.error, args, p)
    else
      let lenCrlf := findCrlf p
      if lenCrlf < 0 then (.incomplete, args, p)
      else
        let slen := (strtoll (p.drop 1)).1
        if slen < 0 then (.error, args, p)
        else
          let p := p.drop (lenCrlf.toNat + 2)
          if p.length < slen.toNat + 2 then (.incomplete, args, p)
          else respItems n (p.drop (slen.toNat + 2)) (args ++ [p.take slen.toNat])

/-- `resp_parse`. -/
def respParse (buf : Bytes) : RespResult :=
  match buf with
  | [] => ⟨.incomplete, [], 0⟩
  | b :: _ =>
    if b ≠ 42 then
      let crlf := findCrlf buf
      if crlf < 0 then ⟨.incomplete, [], 0⟩
      else
        let args := inlineArgs (buf.take crlf.toNat)
        if args = [] then ⟨.error, [], 0⟩ else ⟨.ok, args, crlf.toNat + 2⟩
    else
      let crlf := findCrlf buf
      if crlf < 0 then ⟨.incomplete, [], 0⟩
      else
        let argc := (strtoll (buf.drop 1)).1
        if argc ≤ 0 then ⟨.error, [], 0⟩
        else
          match respItems argc.toNat (buf.drop (crlf.toNat + 2)) [] with
          | (.ok, args, rest) => ⟨.ok, args, buf.length - rest.length⟩
          | (status, args, _) => ⟨status, args, 0⟩

/-- `resp_bulk`. -/
def respBulk (data : Bytes) : Bytes := ascii "$" ++ decimal data.length ++ crlf ++ data ++ crlf

/-- `resp_array`. -/
def respArray (items : List Bytes) : Bytes :=
  items.foldl (fun out item => out ++ respBulk item) (ascii "*" ++ decimal items.length ++ crlf)

/-- The answer of the parser as `handle_read` uses it. -/
def RespResult.outcome (r : RespResult) : Outcome (List Bytes) :=
  match r.status with
  | .ok => .message r.args r.consumed
  | .incomplete => .incomplete
  | .error => .malformed

/-- A message is what was parsed well. -/
theorem RespResult.outcome_message {r : RespResult} {args : List Bytes} {consumed : ℕ} :
    r.outcome = .message args consumed ↔ r = ⟨.ok, args, consumed⟩ := by
  rcases r with ⟨_ | _ | _, _, _⟩ <;> simp [RespResult.outcome]

/-- Incomplete is what needs more bytes. -/
theorem RespResult.outcome_incomplete {r : RespResult} :
    r.outcome = .incomplete ↔ r.status = .incomplete := by
  rcases r with ⟨_ | _ | _, _, _⟩ <;> simp [RespResult.outcome]

/-- The commands that the protocol can carry: they have a name, and no byte string is too long
for a `std::string`. -/
structure Sendable (cmd : List Bytes) : Prop where
  nonempty : cmd ≠ []
  size : (respArray cmd).length < 2 ^ 63

/-! ### Parsing makes progress -/

/-- What is left is no longer than the buffer. -/
theorem respItems_rest_le (n : ℕ) (p : Bytes) (args : List Bytes) :
    (respItems n p args).2.2.length ≤ p.length := by
  induction n generalizing p args with
  | zero => exact le_rfl
  | succ n ih =>
    rw [respItems]
    dsimp only
    -- one goal for each return, the last one for the next argument
    split_ifs
    · exact le_rfl
    · exact le_rfl
    · exact le_rfl
    · exact le_rfl
    · rw [List.length_drop]
      exact Nat.sub_le _ _
    · refine (ih _ _).trans ?_
      rw [List.length_drop, List.length_drop]
      exact (Nat.sub_le _ _).trans (Nat.sub_le _ _)

/-- A parsed command takes at least one byte, so the loop of `handle_read` ends. -/
theorem respParse_consumed {buf : Bytes} (h : (respParse buf).status = .ok) :
    1 ≤ (respParse buf).consumed := by
  cases buf with
  | nil => exact absurd h (by decide)
  | cons b buf =>
    revert h
    rw [respParse]
    dsimp only
    -- one goal for each return; only the one behind an empty array and the last say `ok`
    split_ifs
    · exact fun h => absurd h (by simp)
    · exact fun h => absurd h (by simp)
    · exact fun _ => Nat.le_add_left 1 _
    · exact fun h => absurd h (by simp)
    · exact fun h => absurd h (by simp)
    · have hrest := respItems_rest_le (strtoll ((b :: buf).drop 1)).1.toNat
        ((b :: buf).drop ((findCrlf (b :: buf)).toNat + 2)) []
      rcases hitems : respItems _ _ _ with ⟨_ | _ | _, args, rest⟩
      · rw [hitems, List.length_drop, List.length_cons] at hrest
        intro _
        show 1 ≤ (b :: buf).length - rest.length
        rw [List.length_cons]
        dsimp only at hrest
        omega
      · exact fun h => absurd h (by simp)
      · exact fun h => absurd h (by simp)

/-! ### Headers -/

/-- A header: a mark, a number and a line end. -/
def header (mark : UInt8) (n : ℕ) : Bytes := mark :: decimal n ++ crlf

/-- A bulk string is a header, the data and a line end. -/
theorem respBulk_eq (data : Bytes) : respBulk data = header 36 data.length ++ (data ++ crlf) := by
  rw [respBulk, List.append_assoc _ data]
  rfl

/-- An array is a header and its items. -/
theorem respArray_eq (items : List Bytes) :
    respArray items = header 42 items.length ++ stream respBulk items := by
  have hfold : ∀ (items : List Bytes) (out : Bytes),
      items.foldl (fun out item => out ++ respBulk item) out = out ++ stream respBulk items := by
    intro items
    induction items with
    | nil => exact fun out => (List.append_nil out).symm
    | cons item items ih =>
      intro out
      rw [List.foldl_cons, ih, stream_cons, List.append_assoc]
  rw [respArray, hfold]
  rfl

/-- The first CRLF is the first CR, when that is followed by a LF. -/
theorem crlfIndex_line {line : Bytes} (hline : 13 ∉ line) (rest : Bytes) :
    crlfIndex (line ++ crlf ++ rest) = some line.length := by
  induction line with
  | nil => rfl
  | cons b line ih =>
    rw [List.mem_cons, not_or] at hline
    have hb : b ≠ 13 := Ne.symm hline.1
    have htail := ih hline.2
    -- one byte at least follows `b`
    obtain ⟨c, tail, hc⟩ : ∃ c tail, line ++ crlf ++ rest = c :: tail := by
      cases line with
      | nil => exact ⟨_, _, rfl⟩
      | cons c tail => exact ⟨_, _, rfl⟩
    rw [List.cons_append, List.cons_append, hc, crlfIndex, if_neg fun h => hb h.1, ← hc, htail]
    rfl

/-- Without a LF there is no CRLF. -/
theorem crlfIndex_of_no_lf {buf : Bytes} (h : 10 ∉ buf) : crlfIndex buf = none := by
  induction buf with
  | nil => rfl
  | cons b buf ih =>
    rw [List.mem_cons, not_or] at h
    cases buf with
    | nil => rfl
    | cons c buf =>
      have hc : c ≠ 10 := fun hc => h.2 (hc ▸ List.mem_cons_self)
      rw [crlfIndex, if_neg fun hbc => hc hbc.2, ih h.2]
      rfl

/-- A number is written in digits. -/
theorem isdigit_of_mem_decimal {n : ℕ} {b : UInt8} (hb : b ∈ decimal n) : isdigit b = true := by
  obtain ⟨c, hc, rfl⟩ := List.mem_map.mp hb
  exact (isdigit_of_char (decimal_digits n c hc)).1

/-- A number below `2 ^ 63` has at most 19 digits. -/
theorem length_decimal_le {n : ℕ} (hn : n < 2 ^ 63) : (decimal n).length ≤ 19 := by
  rw [decimal, List.length_map, Nat.length_toDigits_le_iff (by decide) (by decide)]
  exact hn.trans (by decide)

/-- No other byte is in the line of a header. -/
theorem not_mem_line {mark b : UInt8} {n : ℕ} (hdigit : isdigit b = false) (hb : b ≠ mark) :
    b ∉ mark :: decimal n := by
  rw [List.mem_cons, not_or]
  refine ⟨hb, fun hmem => ?_⟩
  rw [isdigit_of_mem_decimal hmem] at hdigit
  exact absurd hdigit (by decide)

section Header

variable {mark : UInt8} (hmark : mark ≠ 13 ∧ mark ≠ 10) {n : ℕ} (hn : n < 2 ^ 63)

include hmark hn in
/-- `find_crlf` finds the end of a header. -/
theorem findCrlf_header (rest : Bytes) :
    findCrlf (header mark n ++ rest) = ((decimal n).length + 1 : ℕ) := by
  have hindex : crlfIndex (header mark n ++ rest) = some (mark :: decimal n).length :=
    crlfIndex_line (not_mem_line (by decide) (Ne.symm hmark.1)) rest
  have hlen := length_decimal_le hn
  rw [findCrlf, hindex]
  dsimp only
  rw [List.length_cons]
  exact Int.bmod_eq_of_le (by omega) (by omega)

/-- Behind the header. -/
theorem drop_header (mark : UInt8) (n : ℕ) (rest : Bytes) :
    (header mark n ++ rest).drop ((decimal n).length + 1 + 2) = rest := by
  have hlen : (header mark n).length = (decimal n).length + 1 + 2 := by
    rw [header, List.length_append, List.length_cons]
    rfl
  rw [← hlen, List.drop_left]

include hn in
/-- `strtol` behind the mark reads the number. -/
theorem strtoll_header (mark : UInt8) (rest : Bytes) :
    (strtoll ((header mark n ++ rest).drop 1)).1 = n := by
  have hmax : (n : Int) ≤ LLONG_MAX := by
    rw [LLONG_MAX]
    omega
  have htext : (header mark n ++ rest).drop 1 = decimal n ++ (crlf ++ rest) := by
    rw [header, List.cons_append, List.cons_append, List.drop_succ_cons, List.drop_zero,
      List.append_assoc]
  have hend : ∀ b ∈ (crlf ++ rest).head?, isdigit b = false := by
    rintro b ⟨⟩
    decide
  rw [htext, strtoll_decimal hmax hend]

include hmark in
/-- `find_crlf` finds nothing in a part of a header. -/
theorem findCrlf_part {p : Bytes} (hp : p <+: header mark n) (hne : p ≠ header mark n) :
    findCrlf p = -1 := by
  have hsplit : header mark n = mark :: decimal n ++ [13] ++ [10] := by
    rw [header, List.append_assoc]
    rfl
  rw [hsplit] at hp hne
  -- the last byte is missing, and it is the only LF
  have hshort : p <+: mark :: decimal n ++ [13] := (List.prefix_concat_iff.mp hp).resolve_left hne
  have hlf : 10 ∉ p := by
    intro hmem
    rcases List.mem_append.mp (hshort.subset hmem) with hline | hcr
    · exact not_mem_line (by decide) (Ne.symm hmark.2) hline
    · exact absurd hcr (by decide)
  rw [findCrlf, crlfIndex_of_no_lf hlf]

end Header

/-! ### Arguments -/

/-- The mark of a bulk string is `$`. -/
theorem bulk_mark : (36 : UInt8) ≠ 13 ∧ (36 : UInt8) ≠ 10 := by decide

/-- The mark of an array is `*`. -/
theorem array_mark : (42 : UInt8) ≠ 13 ∧ (42 : UInt8) ≠ 10 := by decide

/-- One iteration, when the header of the argument is there. -/
theorem respItems_header {item : ℕ} (hitem : item < 2 ^ 63) (n : ℕ) (rest : Bytes)
    (args : List Bytes) :
    respItems (n + 1) (header 36 item ++ rest) args =
      if rest.length < item + 2 then (.incomplete, args, rest)
      else respItems n (rest.drop (item + 2)) (args ++ [rest.take item]) := by
  have hlong : ¬(header 36 item ++ rest).length < 3 := by
    rw [header, List.length_append, List.length_append, List.length_cons]
    show ¬(decimal item).length + 1 + 2 + rest.length < 3
    omega
  have hmark : ¬(header 36 item ++ rest).headD 0 ≠ 36 := not_not.mpr rfl
  rw [respItems, if_neg hlong, if_neg hmark]
  dsimp only
  -- the parser sees the end of the header and the length in it
  rw [findCrlf_header bulk_mark hitem, if_neg (by omega), strtoll_header hitem,
    if_neg (by omega), Int.toNat_natCast, Int.toNat_natCast, drop_header]

/-- An argument at the front is read. -/
theorem respItems_bulk {item : Bytes} (hitem : item.length < 2 ^ 63) (n : ℕ) (rest : Bytes)
    (args : List Bytes) :
    respItems (n + 1) (respBulk item ++ rest) args = respItems n rest (args ++ [item]) := by
  have hlen : (item ++ crlf).length = item.length + 2 := List.length_append
  rw [respBulk_eq, List.append_assoc, respItems_header hitem, if_neg, ← hlen, List.drop_left,
    List.append_assoc, List.take_left]
  -- the payload and its line end are there
  rw [List.length_append, hlen]
  omega

/-- In front of a part of an argument the parser waits. -/
theorem respItems_part {item : Bytes} (hitem : item.length < 2 ^ 63) {p : Bytes}
    (hp : p <+: respBulk item) (hne : p ≠ respBulk item) (n : ℕ) (args : List Bytes) :
    (respItems (n + 1) p args).1 = .incomplete := by
  rw [respBulk_eq] at hp hne
  rcases prefix_append_cases hp with ⟨q, rfl, hq⟩ | ⟨hpart, hpne⟩
  · -- the header is there, so it is the payload that is cut
    have hshort : q.length < item.length + 2 := by
      have hle := hq.length_le
      have hneq : q.length ≠ (item ++ crlf).length := fun h => hne (by rw [hq.eq_of_length h])
      rw [List.length_append] at hle hneq
      exact lt_of_le_of_ne hle hneq
    rw [respItems_header hitem, if_pos hshort]
  · rw [respItems]
    by_cases hlen : p.length < 3
    · rw [if_pos hlen]
    -- what there is of the header begins with its mark
    obtain ⟨b, q, rfl⟩ := List.exists_cons_of_ne_nil (l := p) (by
      rintro rfl
      exact hlen (by decide))
    obtain rfl : b = 36 := (List.cons_prefix_cons.mp hpart).1
    have hmark : ¬(36 :: q).headD 0 ≠ 36 := not_not.mpr rfl
    rw [if_neg hlen, if_neg hmark]
    dsimp only
    rw [findCrlf_part bulk_mark hpart hpne, if_pos (by decide)]

/-- **All arguments** are read, whatever follows them. -/
theorem respItems_whole {items : List Bytes} (hitems : ∀ item ∈ items, item.length < 2 ^ 63)
    (rest : Bytes) (args : List Bytes) :
    respItems items.length (stream respBulk items ++ rest) args = (.ok, args ++ items, rest) := by
  induction items generalizing args with
  | nil => rw [List.length_nil, respItems, List.append_nil, stream_nil, List.nil_append]
  | cons item items ih =>
    rw [List.length_cons, stream_cons, List.append_assoc,
      respItems_bulk (hitems item List.mem_cons_self),
      ih fun i hi => hitems i (List.mem_cons_of_mem item hi), List.append_assoc]
    rfl

/-- **A part of the arguments** is not enough. -/
theorem respItems_waits {items : List Bytes} (hitems : ∀ item ∈ items, item.length < 2 ^ 63)
    {p : Bytes} (hp : p <+: stream respBulk items) (hne : p ≠ stream respBulk items)
    (args : List Bytes) : (respItems items.length p args).1 = .incomplete := by
  induction items generalizing p args with
  | nil => exact absurd (List.prefix_nil.mp hp) hne
  | cons item items ih =>
    have hitem := hitems item List.mem_cons_self
    rw [stream_cons] at hp hne
    rw [List.length_cons]
    -- either the first argument is whole and a later one is cut, or the first one is
    rcases prefix_append_cases hp with ⟨q, rfl, hq⟩ | ⟨hpart, hpne⟩
    · rw [respItems_bulk hitem]
      exact ih (fun i hi => hitems i (List.mem_cons_of_mem item hi)) hq
        (fun h => hne (by rw [h])) _
    · exact respItems_part hitem hpart hpne _ _

/-! ### Commands -/

/-- The sizes that the headers of a sendable command tell. -/
theorem Sendable.sizes {cmd : List Bytes} (h : Sendable cmd) :
    cmd.length < 2 ^ 63 ∧ ∀ item ∈ cmd, item.length < 2 ^ 63 := by
  have hsize := h.size
  rw [respArray_eq, List.length_append] at hsize
  -- an argument is written behind a header
  have hbulk : ∀ item : Bytes, item.length + 1 ≤ (respBulk item).length := by
    intro item
    rw [respBulk_eq, List.length_append, List.length_append]
    show item.length + 1 ≤ _ + (item.length + 2)
    omega
  -- and a command has no fewer bytes than arguments
  have hcount : cmd.length ≤ (stream respBulk cmd).length :=
    length_le_stream (fun item => le_of_add_le_right (hbulk item)) cmd
  refine ⟨by omega, fun item hi => ?_⟩
  have hitem := (hbulk item).trans (length_le_of_mem hi)
  omega

/-- `resp_parse`, when the header of the command is there. -/
theorem respParse_header {n : ℕ} (hpos : n ≠ 0) (hn : n < 2 ^ 63) (rest : Bytes) :
    respParse (header 42 n ++ rest) =
      match respItems n rest [] with
      | (.ok, args, left) => ⟨.ok, args, (header 42 n ++ rest).length - left.length⟩
      | (status, args, _) => ⟨status, args, 0⟩ := by
  have hcrlf := findCrlf_header array_mark hn rest
  have hcount := strtoll_header hn 42 rest
  have hdrop := drop_header 42 n rest
  rw [header, List.cons_append, List.cons_append] at hcrlf hcount hdrop ⊢
  rw [respParse, if_neg (by decide)]
  dsimp only
  -- the line end is there, and the number is positive
  rw [hcrlf, if_neg (by omega), hcount, if_neg (by omega), Int.toNat_natCast, Int.toNat_natCast,
    hdrop]

/-- **Commands in a stream.** `resp_parse` takes apart what `resp_array` writes. -/
theorem resp_frames : Frames respArray (fun buf => (respParse buf).outcome) Sendable where
  whole := by
    intro cmd hcmd rest
    obtain ⟨hcount, hitems⟩ := hcmd.sizes
    have hpos : cmd.length ≠ 0 := fun h => hcmd.nonempty (List.length_eq_zero_iff.mp h)
    rw [respArray_eq, List.append_assoc, respParse_header hpos hcount,
      respItems_whole hitems rest []]
    show Outcome.message cmd _ = _
    congr 1
    rw [← List.append_assoc, List.length_append]
    exact Nat.add_sub_cancel _ _
  waits := by
    intro cmd hcmd p hp hne
    obtain ⟨hcount, hitems⟩ := hcmd.sizes
    have hpos : cmd.length ≠ 0 := fun h => hcmd.nonempty (List.length_eq_zero_iff.mp h)
    rw [respArray_eq] at hp hne
    rcases prefix_append_cases hp with ⟨q, rfl, hq⟩ | ⟨hpart, hpne⟩
    · -- the number of arguments is known, and they are not all there
      -- so the loop over the arguments waits
      have hwaits := respItems_waits hitems hq (fun h => hne (by rw [h])) []
      rw [respParse_header hpos hcount]
      rcases hparse : respItems cmd.length q [] with ⟨status, args, left⟩
      rw [hparse] at hwaits
      obtain rfl : status = .incomplete := hwaits
      rfl
    · -- there is no line end yet
      cases p with
      | nil => rfl
      | cons b q =>
        obtain rfl : b = 42 := (List.cons_prefix_cons.mp hpart).1
        rw [respParse, if_neg (by decide)]
        dsimp only
        rw [findCrlf_part array_mark hpart hpne, if_pos (by decide)]
        rfl

end Minired
