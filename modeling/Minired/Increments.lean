import Minired.WrongType
import Minired.NumberScan

/-!
# Increments

`INCR`, `DECR`, `INCRBY` and `DECRBY` read the text of a key with `strtoll`, add, and print the sum.
`DecimalText text v` says what they should read: an optional sign, and digits up to the end of the
text. `do_incr` asks no more than that `strtoll` stops at a byte 0, so it also accepts

* the empty text, and any text that begins with a byte 0 (`strtoll` finds no number there and
  stops where it began),
* white space in front of a number, and a byte 0 behind it, with whatever comes next,
* a number that does not fit in 64 bits, which `strtoll` replaces by the nearest one that does.

It then adds without a check, and `DECRBY` negates its argument without one. `increment_exact_iff`
shows that these are all the cases in which the commands are not exact.
-/

namespace Minired

open Relational

variable {libc : Libc} {now : Int64} {s : Session} {args : List Bytes} {key text : Bytes}

/-! ### Decimal integers -/

/-- The number that the digits write in base 10. -/
def digitsValue (digits : Bytes) : ℕ :=
  Nat.ofDigits 10 (digits.reverse.map fun b => b.toNat - 48)

/-- The whole text is an optionally signed decimal integer, and its value is the number. -/
inductive DecimalText : Bytes → Int → Prop
  | unsigned {digits : Bytes} : digits ≠ [] → (∀ b ∈ digits, isdigit b = true) →
      DecimalText digits (digitsValue digits)
  | plus {digits : Bytes} : digits ≠ [] → (∀ b ∈ digits, isdigit b = true) →
      DecimalText (43 :: digits) (digitsValue digits)
  | minus {digits : Bytes} : digits ≠ [] → (∀ b ∈ digits, isdigit b = true) →
      DecimalText (45 :: digits) (-digitsValue digits)

/-- Digits are scanned to their number. -/
theorem scanDigits_eq {digits : Bytes} (hdigits : ∀ b ∈ digits, isdigit b = true) (acc : ℕ) :
    scanDigits acc digits = (acc * 10 ^ digits.length + digitsValue digits, []) := by
  induction digits generalizing acc with
  | nil =>
    rw [scanDigits, List.length_nil, pow_zero, mul_one]
    rfl
  | cons b digits ih =>
    have hvalue : digitsValue (b :: digits) =
        digitsValue digits + 10 ^ digits.length * (b.toNat - 48) := by
      simp [digitsValue, Nat.ofDigits_append]
    rw [scanDigits, if_pos (hdigits b List.mem_cons_self),
      ih fun c hc => hdigits c (List.mem_cons_of_mem b hc), hvalue, List.length_cons, pow_succ]
    congr 1
    ring

/-- A scan with a given sign and given digits behind it. -/
theorem scanInt_of_sign (minus : Bool) {digits : Bytes}
    (hsign : scanSign (text.dropWhile isspace) = (minus, digits)) (hne : digits ≠ [])
    (hdigits : ∀ b ∈ digits, isdigit b = true) :
    scanInt text =
      some (if minus then -(digitsValue digits : Int) else digitsValue digits, []) := by
  obtain ⟨b, bs, rfl⟩ := List.exists_cons_of_ne_nil hne
  have hb : isdigit b = true := hdigits b List.mem_cons_self
  rw [scanInt, hsign, scanDigits_eq hdigits]
  simp [hb]

/-- A scan that comes to the end has found a sign and digits. -/
theorem scanSign_of_scanInt {v : Int} (h : scanInt text = some (v, [])) :
    ∃ minus digits, scanSign (text.dropWhile isspace) = (minus, digits) ∧ digits ≠ [] ∧
      (∀ b ∈ digits, isdigit b = true) ∧
      v = if minus then -(digitsValue digits : Int) else digitsValue digits := by
  obtain ⟨⟨minus, digits⟩, hsign⟩ : ∃ r, scanSign (text.dropWhile isspace) = r := ⟨_, rfl⟩
  rw [scanInt, hsign] at h
  dsimp only at h
  by_cases hhead : (digits.head?.map isdigit).getD false = true
  · rw [if_pos hhead] at h
    obtain ⟨hv, hstop⟩ := Prod.mk.inj (Option.some.inj h)
    have hdigits : ∀ b ∈ digits, isdigit b = true := isdigit_of_scanDigits hstop
    have hne : digits ≠ [] := by
      rintro rfl
      cases hhead
    rw [scanDigits_eq hdigits, Nat.zero_mul, Nat.zero_add] at hv
    exact ⟨minus, digits, hsign, hne, hdigits, hv.symm⟩
  · rw [if_neg hhead] at h
    cases h

/-- Digits are scanned from the front. -/
theorem scanDigits_suffix (acc : ℕ) (s : Bytes) : (scanDigits acc s).2 <:+ s := by
  induction s generalizing acc with
  | nil => exact List.suffix_rfl
  | cons b s ih =>
    rw [scanDigits]
    split_ifs
    · exact (ih _).trans (List.suffix_cons b s)
    · exact List.suffix_rfl

/-- What is behind the number is at the end of the text. -/
theorem suffix_of_scanInt {v : Int} {rest : Bytes} (h : scanInt text = some (v, rest)) :
    rest <:+ text := by
  have hsign : ∀ s : Bytes, (scanSign s).2 <:+ s := by
    intro s
    cases s with
    | nil => exact List.suffix_rfl
    | cons b s =>
      rw [scanSign]
      split_ifs
      · exact List.suffix_cons b s
      · exact List.suffix_cons b s
      · exact List.suffix_rfl
  rw [scanInt] at h
  dsimp only at h
  split_ifs at h
  all_goals
    obtain ⟨-, rfl⟩ := Prod.mk.inj (Option.some.inj h)
    exact ((scanDigits_suffix 0 _).trans (hsign _)).trans (List.dropWhile_suffix isspace)

/-- **Decimal integers** are what the scan reads to the end, without white space in front. -/
theorem decimalText_iff {v : Int} :
    DecimalText text v ↔ scanInt text = some (v, []) ∧ ∀ b ∈ text.head?, isspace b = false := by
  constructor
  · intro h
    cases h with
    | @unsigned digits hne hdigits =>
      obtain ⟨b, bs, rfl⟩ := List.exists_cons_of_ne_nil hne
      obtain ⟨hspace, hminus, hplus⟩ := isdigit_apart (hdigits b List.mem_cons_self)
      refine ⟨scanInt_of_sign false ?_ hne hdigits, by simpa using hspace⟩
      rw [List.dropWhile_cons_of_neg (by simp [hspace]), scanSign, if_neg hminus, if_neg hplus]
    | plus hne hdigits =>
      have hspace : isspace 43 = false := by decide
      refine ⟨scanInt_of_sign false ?_ hne hdigits, by simpa using hspace⟩
      rw [List.dropWhile_cons_of_neg (by simp [hspace])]
      rfl
    | minus hne hdigits =>
      have hspace : isspace 45 = false := by decide
      refine ⟨scanInt_of_sign true ?_ hne hdigits, by simpa using hspace⟩
      rw [List.dropWhile_cons_of_neg (by simp [hspace])]
      rfl
  · rintro ⟨hscan, hspace⟩
    obtain ⟨minus, digits, hsign, hne, hdigits, rfl⟩ := scanSign_of_scanInt hscan
    cases text with
    | nil =>
      obtain rfl : ([] : Bytes) = digits := (Prod.mk.inj hsign).2
      exact absurd rfl hne
    | cons b bs =>
      rw [List.dropWhile_cons_of_neg (by simp [hspace b rfl]), scanSign] at hsign
      -- the first byte is the sign, or there is none
      split_ifs at hsign with hminus hplus
      · obtain ⟨rfl, rfl⟩ := Prod.mk.inj hsign
        subst hminus
        exact .minus hne hdigits
      · obtain ⟨rfl, rfl⟩ := Prod.mk.inj hsign
        subst hplus
        exact .plus hne hdigits
      · obtain ⟨rfl, rfl⟩ := Prod.mk.inj hsign
        exact .unsigned hne hdigits

/-! ### What the commands should do -/

/-- The value of a key, as the handlers see it. -/
def liveValue (now : Int64) (d : Dict Obj) (key : Bytes) : Option Value :=
  (live now d key).map Obj.value

/-- The number is a `long long`. -/
def IsLongLong (v : Int) : Prop := LLONG_MIN ≤ v ∧ v ≤ LLONG_MAX

instance (v : Int) : Decidable (IsLongLong v) := inferInstanceAs (Decidable (_ ∧ _))

/-- What is stored reads as the number. A missing key reads as 0. -/
def ReadsAs : Option Bytes → Int → Prop
  | none, v => v = 0
  | some text, v => DecimalText text v

variable (libc) in
/-- The command replies the exact sum and stores its decimal form, or it replies an error and keeps
what is stored. Either way it returns. -/
def CountsExactly (now : Int64) (s : Session) (args : List Bytes) (stored : Option Bytes)
    (delta : Int) : Prop :=
  let value := liveValue now (exec (dispatchCommand libc now args) s).2.dict (arg args 1)
  (∃ v, ReadsAs stored v ∧ IsLongLong v ∧ IsLongLong (v + delta) ∧
      Replied libc now s args (.integer (v + delta)) ∧
      value = some (.str (decimalInt (v + delta)))) ∨
    (∃ line, Replied libc now s args (.error line)) ∧ value = stored.map .str

/-! ### What they ask for -/

/-- `do_incr` accepts the text: there is a byte 0 where `strtoll` stops. -/
def Accepts (text : Bytes) : Prop := (strtoll text).2.headD 0 = 0

/-- The number at the front of a text, before it is cut to 64 bits; 0 if there is none. -/
def leadingInt (text : Bytes) : Int := ((scanInt text).map Prod.fst).getD 0

/-- The text has none of the flaws that `do_incr` overlooks: it is empty, it begins with white
space, it has a byte 0 in it, or one of the numbers does not fit. -/
structure SoundNumber (text : Bytes) (delta : Int) : Prop where
  nonempty : text ≠ []
  noSpace : ∀ b ∈ text.head?, isspace b = false
  noNul : 0 ∉ text
  number : IsLongLong (leadingInt text)
  sum : IsLongLong (leadingInt text + delta)

/-- Digits and signs are no byte 0. -/
theorem DecimalText.noNul {v : Int} (h : DecimalText text v) : 0 ∉ text := by
  have hdigit : isdigit 0 = false := by decide
  have hmem : ∀ {digits : Bytes}, (∀ b ∈ digits, isdigit b = true) → 0 ∉ digits := by
    intro digits hdigits h0
    rw [hdigits 0 h0] at hdigit
    cases hdigit
  cases h with
  | unsigned _ hdigits => exact hmem hdigits
  | plus _ hdigits => exact List.not_mem_cons_of_ne_of_not_mem (by decide) (hmem hdigits)
  | minus _ hdigits => exact List.not_mem_cons_of_ne_of_not_mem (by decide) (hmem hdigits)

/-- A decimal integer that fits is read by `strtoll`, and accepted. -/
theorem strtoll_of_decimalText {v : Int} (h : DecimalText text v) (hfits : IsLongLong v) :
    strtoll text = (v, []) := by
  rw [strtoll, (decimalText_iff.mp h).1]
  dsimp only
  rw [min_eq_right hfits.2, max_eq_right hfits.1]

/-- A decimal integer with its number in front. -/
theorem leadingInt_of_decimalText {v : Int} (h : DecimalText text v) : leadingInt text = v := by
  rw [leadingInt, (decimalText_iff.mp h).1]
  rfl

/-- **What is accepted** is a decimal integer, unless it is empty, begins with white space or has a
byte 0 in it. -/
theorem decimalText_of_accepts (haccepts : Accepts text) (hne : text ≠ [])
    (hspace : ∀ b ∈ text.head?, isspace b = false) (hnul : 0 ∉ text) :
    DecimalText text (leadingInt text) := by
  -- the text ends where `strtoll` stopped, for there is no byte 0 before its end
  have hend : ∀ rest : Bytes, (∀ b ∈ rest, b ∈ text) → rest.headD 0 = 0 → rest = [] := by
    intro rest hmem hhead
    cases rest with
    | nil => rfl
    | cons b bs => exact absurd (hhead ▸ hmem b List.mem_cons_self) hnul
  rw [Accepts, strtoll] at haccepts
  cases hscan : scanInt text with
  | none =>
    rw [hscan] at haccepts
    exact absurd (hend text (fun _ hb => hb) haccepts) hne
  | some r =>
    obtain ⟨v, rest⟩ := r
    rw [hscan] at haccepts
    obtain rfl : rest = [] := hend rest (fun _ hb => (suffix_of_scanInt hscan).mem hb) haccepts
    rw [decimalText_iff, leadingInt, hscan]
    exact ⟨rfl, hspace⟩

/-! ### What the commands do -/

section Runs

variable {o : Obj} {delta : Int} (hs : s.dict.WF)

include hs

/-- A missing key is made. -/
theorem exec_doIncr_missing (hlive : live now s.dict key = none) (hdelta : IsLongLong delta) :
    exec (doIncr now key delta) s =
      (.ok (), { s with
        dict := dictSet (checkExpiry now s.dict key).1 key (newObj (.str (decimalInt delta)))
        writeBuf := s.writeBuf ++ (RespValue.integer delta).encode }) := by
  rw [doIncr, exec_withKey_missing hs hlive, zero_add, int64_of_fits hdelta, exec_raise_ok_bind]
  rfl

variable (hlive : live now s.dict key = some o) (ho : o.value = .str text)

include hlive ho

/-- A text that is not accepted is refused. -/
theorem exec_doIncr_refused (haccepts : ¬Accepts text) :
    exec (doIncr now key delta) s =
      exec (replyError "value is not an integer or out of range") s := by
  rw [Accepts] at haccepts
  rw [doIncr, exec_withKey_live hs hlive, ho]
  dsimp only
  rw [if_pos haccepts]

/-- A text that is accepted is changed, if the sum does not overflow. -/
theorem exec_doIncr_accepted (haccepts : Accepts text)
    (hsum : IsLongLong ((strtoll text).1 + delta)) :
    exec (doIncr now key delta) s =
      (.ok (), { s with
        dict := dictModify s.dict key
          (Obj.setValue (.str (decimalInt ((strtoll text).1 + delta))))
        writeBuf := s.writeBuf ++ (RespValue.integer ((strtoll text).1 + delta)).encode }) := by
  rw [Accepts] at haccepts
  rw [doIncr, exec_withKey_live hs hlive, ho]
  dsimp only
  rw [if_neg (not_not.mpr haccepts), int64_of_fits hsum, exec_raise_ok_bind]
  rfl

/-- A sum that overflows. -/
theorem exec_doIncr_overflow (haccepts : Accepts text)
    (hsum : ¬IsLongLong ((strtoll text).1 + delta)) :
    exec (doIncr now key delta) s = (.error .signedOverflow, s) := by
  rw [Accepts] at haccepts
  rw [doIncr, exec_withKey_live hs hlive, ho]
  dsimp only
  rw [if_neg (not_not.mpr haccepts), int64_of_not_fits hsum]
  rfl

end Runs

/-! ### Exactness -/

section Exact

variable {delta : Int} (hs : s.dict.WF)

/-- A reply that is an integer is no error. -/
theorem Replied.not_error {n : Int} {line : { l // IsLine l }}
    (h : Replied libc now s args (.integer n)) : ¬Replied libc now s args (.error line) := by
  intro herror
  have hencode := congrArg List.head? (h.unique herror)
  rw [RespValue.head_encode, RespValue.head_encode] at hencode
  exact absurd hencode (by simp [RespValue.mark])

/-- Either way the command returns. -/
theorem CountsExactly.returned {stored : Option Bytes}
    (h : CountsExactly libc now s args stored delta) :
    (exec (dispatchCommand libc now args) s).1 = .ok () := by
  obtain ⟨v, -, -, -, hreply, -⟩ | ⟨⟨line, hreply⟩, -⟩ := h
  · exact hreply.1
  · exact hreply.1

/-- The object of a key that has just been written. -/
theorem liveValue_of_get {d : Dict Obj} {o : Obj} (hget : dictGet d key = some o)
    (ho : o.expired now = false) : liveValue now d key = some o.value := by
  rw [liveValue, live_eq_some_iff.mpr ⟨hget, ho⟩]
  rfl

include hs

/-- A missing key counts from 0. -/
theorem countsExactly_missing (hlive : live now s.dict (arg args 1) = none)
    (hdelta : IsLongLong delta)
    (hrun : exec (dispatchCommand libc now args) s = exec (doIncr now (arg args 1) delta) s) :
    CountsExactly libc now s args none delta := by
  rw [exec_doIncr_missing hs hlive hdelta] at hrun
  refine Or.inl ⟨0, rfl, by decide, by rwa [zero_add], ?_, ?_⟩
  · rw [Replied, hrun, zero_add]
    exact ⟨rfl, rfl⟩
  · rw [hrun, zero_add]
    refine liveValue_of_get (o := newObj (.str (decimalInt delta))) ?_ rfl
    exact dictGet_dictSet_self (wf_checkExpiry hs now _) _ _

variable {o : Obj} (hlive : live now s.dict (arg args 1) = some o) (ho : o.value = .str text)

include hlive ho

/-- A text that is refused stays. -/
theorem countsExactly_refused (haccepts : ¬Accepts text)
    (hrun : exec (dispatchCommand libc now args) s = exec (doIncr now (arg args 1) delta) s) :
    CountsExactly libc now s args (some text) delta := by
  rw [exec_doIncr_refused hs hlive ho haccepts] at hrun
  have hline : IsLine (ascii "ERR " ++ ascii "value is not an integer or out of range") := by decide
  refine Or.inr ⟨⟨⟨_, hline⟩, ?_⟩, ?_⟩
  · rw [Replied, hrun]
    exact ⟨rfl, rfl⟩
  · rw [hrun]
    show liveValue now s.dict (arg args 1) = some (.str text)
    rw [liveValue, hlive, Option.map_some, ho]

/-- **A text that is accepted** is counted exactly when it is sound. -/
theorem countsExactly_accepted_iff (haccepts : Accepts text)
    (hrun : exec (dispatchCommand libc now args) s = exec (doIncr now (arg args 1) delta) s) :
    CountsExactly libc now s args (some text) delta ↔ SoundNumber text delta := by
  constructor
  · intro h
    have hreturned := h.returned
    have hsum : IsLongLong ((strtoll text).1 + delta) := by
      by_contra hsum
      rw [hrun, exec_doIncr_overflow hs hlive ho haccepts hsum] at hreturned
      cases hreturned
    obtain ⟨v, htext, hv, hvsum, -, -⟩ | ⟨⟨line, hreply⟩, -⟩ := h
    · have hscan := decimalText_iff.mp htext
      have hlead := leadingInt_of_decimalText htext
      refine ⟨?_, hscan.2, htext.noNul, by rwa [hlead], by rwa [hlead]⟩
      rintro rfl
      cases hscan.1
    · -- the reply is the integer that comes of what `strtoll` read
      have hinteger : Replied libc now s args (.integer ((strtoll text).1 + delta)) := by
        rw [Replied, hrun, exec_doIncr_accepted hs hlive ho haccepts hsum]
        exact ⟨rfl, rfl⟩
      exact absurd hreply hinteger.not_error
  · rintro ⟨hne, hspace, hnul, hv, hsum⟩
    -- `strtoll` reads the number that the text is
    have htext := decimalText_of_accepts haccepts hne hspace hnul
    have hvalue : (strtoll text).1 = leadingInt text := by
      rw [strtoll_of_decimalText htext hv]
    rw [← hvalue] at hsum
    rw [exec_doIncr_accepted hs hlive ho haccepts hsum, hvalue] at hrun
    refine Or.inl ⟨leadingInt text, htext, hv, hvalue ▸ hsum, ?_, ?_⟩
    · rw [Replied, hrun]
      exact ⟨rfl, rfl⟩
    · obtain ⟨hget, hexpired⟩ := live_eq_some_iff.mp hlive
      rw [hrun]
      refine liveValue_of_get (o := o.setValue _) ?_ hexpired
      rw [dictGet_dictModify_self hs, hget]
      rfl

end Exact

/-- **Exact increments.** An `INCR`, `DECR`, `INCRBY` or `DECRBY` with an argument that `std::stoll`
accepts, on a key that holds a string or nothing, is exact if and only if it is no `DECRBY` of
`-2 ^ 63`, and a text that `do_incr` accepts is sound. -/
theorem increment_exact_iff (hs : Reachable libc s.dict) {name : Bytes} {rest : List Bytes}
    {c : Command} (hc : findCommand name = some c) {delta : Int}
    (hdelta : c.increment (name :: rest) = some delta) (hcount : c.ValidCount (name :: rest))
    {stored : Option Bytes}
    (hstored : liveValue now s.dict (arg (name :: rest) 1) = stored.map .str) :
    CountsExactly libc now s (name :: rest) stored delta ↔
      ¬c.Overflows (name :: rest) ∧
        ∀ text, stored = some text → Accepts text → SoundNumber text delta := by
  by_cases hover : c.Overflows (name :: rest)
  · -- the program does not come to `do_incr`
    refine iff_of_false (fun h => ?_) fun h => h.1 hover
    obtain ⟨rfl, hargument⟩ := hover
    have hthrow : exec (dispatchCommand libc now (name :: rest)) s =
        (.error .signedOverflow, s) := by
      rw [dispatchCommand_of_find hc]
      exact exec_decrby_overflow hcount hargument
    have hreturned := h.returned
    rw [hthrow] at hreturned
    cases hreturned
  · have hrun : exec (dispatchCommand libc now (name :: rest)) s =
        exec (doIncr now (arg (name :: rest) 1) delta) s := by
      rw [dispatchCommand_of_find hc, exec_increment hdelta hcount hover]
    rw [liveValue] at hstored
    cases stored with
    | none =>
      have hlive := Option.map_eq_none_iff.mp hstored
      refine iff_of_true ?_ ⟨hover, fun _ h => nomatch h⟩
      exact countsExactly_missing hs.wf hlive (fits_increment hdelta hover) hrun
    | some text =>
      obtain ⟨o, hlive, ho⟩ := Option.map_eq_some_iff.mp hstored
      by_cases haccepts : Accepts text
      · rw [countsExactly_accepted_iff hs.wf hlive ho haccepts hrun]
        constructor
        · rintro hsound
          refine ⟨hover, fun t ht _ => ?_⟩
          rwa [← Option.some.inj ht]
        · rintro ⟨-, h⟩
          exact h text rfl haccepts
      · refine iff_of_true (countsExactly_refused hs.wf hlive ho haccepts hrun) ⟨hover, ?_⟩
        rintro t ht hat
        rw [← Option.some.inj ht] at hat
        exact absurd hat haccepts

/-- `SET n` of a text, the reply already sent. -/
def counterKey (text : Bytes) : Session :=
  { (exec (dispatchCommand Libc.plain 1000 [ascii "SET", ascii "n", text]) Session.fresh).2 with
    writeBuf := [] }

/-- It is reached by one `SET`. -/
theorem reachable_counterKey (text : Bytes) : Reachable Libc.plain (counterKey text).dict :=
  .command 1000 _ reachable_fresh

/-- The text is live. -/
theorem liveValue_counterKey (text : Bytes) :
    liveValue 1000 (counterKey text).dict (ascii "n") = some (.str text) := by
  have hset : ∀ key : Bytes, (exec (cmdSet [ascii "SET", key, text]) Session.fresh).2.dict =
      dictSet Session.fresh.dict key (newObj (.str text)) := fun _ => rfl
  have hfresh : Reachable Libc.plain Session.fresh.dict := reachable_fresh
  refine liveValue_of_get (o := newObj (.str text)) ?_ rfl
  rw [counterKey, dispatchCommand_of_find (c := .SET) (by decide)]
  show dictGet (exec (cmdSet [ascii "SET", ascii "n", text]) Session.fresh).2.dict _ = _
  rw [hset, dictGet_dictSet_self hfresh.wf]

/-- A counter of 41. -/
theorem increment_fortyOne :
    let stored := some (ascii "41")
    CountsExactly Libc.plain 1000 (counterKey (ascii "41")) [ascii "INCR", ascii "n"] stored 1 ↔
      ¬Command.INCR.Overflows [ascii "INCR", ascii "n"] ∧
        ∀ text, stored = some text → Accepts text → SoundNumber text 1 :=
  increment_exact_iff (reachable_counterKey _) (by decide) rfl (le_refl 2)
    (liveValue_counterKey _)

/-- Twenty nines are no 64-bit number, but `DECR` accepts them, and replies 9223372036854775806. -/
theorem decrement_twentyNines :
    let text := ascii "99999999999999999999"
    let args := [ascii "DECR", ascii "n"]
    Reachable Libc.plain (counterKey text).dict ∧ findCommand (ascii "DECR") = some .DECR ∧
      Command.DECR.increment args = some (-1) ∧ Command.DECR.ValidCount args ∧
      liveValue 1000 (counterKey text).dict (arg args 1) = (some text).map .str ∧
      Replied Libc.plain 1000 (counterKey text) args (.integer 9223372036854775806) ∧
      ¬CountsExactly Libc.plain 1000 (counterKey text) args (some text) (-1) := by
  intro text args
  have hreply : Replied Libc.plain 1000 (counterKey text) args (.integer 9223372036854775806) :=
    ⟨by decide, by decide⟩
  refine ⟨reachable_counterKey _, by decide, rfl, le_refl 2, liveValue_counterKey _, hreply, ?_⟩
  rintro (⟨v, htext, hv, -⟩ | ⟨⟨line, herror⟩, -⟩)
  · -- the number of the text does not fit
    have hscan : scanInt text = some (99999999999999999999, []) := by decide
    have hvalue := (decimalText_iff.mp htext).1
    rw [hscan] at hvalue
    obtain rfl : 99999999999999999999 = v := (Prod.mk.inj (Option.some.inj hvalue)).1
    exact absurd hv (by decide)
  · exact hreply.not_error herror

end Minired
