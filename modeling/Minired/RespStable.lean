import Minired.RespItem
import Minired.NumberScan

/-!
# Parsing with more bytes behind

`resp_parse` is called on what has come so far, and called again when more has come. What it
has said of the beginning should then hold of all of it: the same command, or still an error.

`find_crlf` and the search for the blanks of an inline command look at nothing behind the line
end, but `strtol` does. It skips the line end of a blank header like other white space, and if
it then meets only a sign and digits up to the end of the buffer, more bytes may change the
number (`OpenHeader`, `GrowingHeader`). `SettledBuffer` is the condition that this does not happen
in a header that decides; `SettledBuffer.stable` and `settled_of_stable` say that it is the right
one.
-/

namespace Minired

/-- `strtol` runs to the end of the buffer. -/
def OpenHeader (p : Bytes) : Prop := scanStop (p.drop 1) = []

/-- Besides, there is no minus sign: more digits make the number larger. -/
def GrowingHeader (p : Bytes) : Prop := OpenHeader p ∧ scanMinus (p.drop 1) = false

/-- Whether a header can still grow can be computed. -/
instance : DecidablePred OpenHeader := fun _ => inferInstanceAs (Decidable (_ = _))

/-- So can whether its number grows. -/
instance : DecidablePred GrowingHeader := fun _ => inferInstanceAs (Decidable (_ ∧ _))

/-! ### Headers with more bytes behind -/

section Header

variable {p : Bytes}

/-- The number of a header, with more bytes behind it. -/
theorem headerNumber_append_eq (hne : p ≠ []) (x : Bytes) :
    headerNumber (p ++ x) = (strtoll (p.drop 1 ++ x)).1 := by
  obtain ⟨b, p, rfl⟩ := List.exists_cons_of_ne_nil hne
  rfl

/-- More bytes leave the first one alone. -/
theorem headD_append (hne : p ≠ []) (x : Bytes) : (p ++ x).headD 0 = p.headD 0 := by
  obtain ⟨b, p, rfl⟩ := List.exists_cons_of_ne_nil hne
  rfl

/-- The mark of an argument ends the scan of a number. -/
theorem not_openHeader_of_mark {q : Bytes} (hq : q <:+ p.drop 1) (hmark : q.headD 0 = 36) :
    ¬OpenHeader p := by
  intro hopen
  have hmem : (36 : UInt8) ∈ p.drop 1 := by
    cases q with
    | nil => exact absurd hmark (by decide)
    | cons b q =>
      obtain rfl : b = 36 := hmark
      exact hq.subset List.mem_cons_self
  -- an open header holds only white space, signs and digits, and `$` is none of these
  rcases scanStop_eq_nil_mem hopen hmem with h | h | h | h
  · exact absurd h (by decide)
  · exact absurd h (by decide)
  · exact absurd h (by decide)
  · exact absurd h (by decide)

/-- What stands behind the header is an end of the buffer. -/
theorem behindHeader_suffix (p : Bytes) : behindHeader p <:+ p.drop 1 := by
  have hdrop : behindHeader p = (p.drop 1).drop ((findCrlf p).toNat + 1) := by
    rw [List.drop_drop, behindHeader]
    congr 1
    omega
  rw [hdrop]
  exact List.drop_suffix _ _

end Header

/-! ### One argument -/

section Item

variable {p item rest : Bytes}

/-- An item is not empty. -/
theorem IsItem.ne_nil (h : IsItem p item rest) : p ≠ [] := by
  rintro rfl
  exact absurd h.long (by decide)

/-- What stands behind an item is an end of the buffer. -/
theorem IsItem.rest_suffix (h : IsItem p item rest) : rest <:+ p.drop 1 := by
  rw [← h.rest_eq]
  exact (List.drop_suffix _ _).trans (behindHeader_suffix p)

/-- An argument whose number stays is taken as before. -/
theorem IsItem.append (h : IsItem p item rest) {x : Bytes}
    (hnumber : headerNumber (p ++ x) = headerNumber p) : IsItem (p ++ x) item (rest ++ x) := by
  have hbehind := behindHeader_append h.line x
  have hlong := h.payload
  -- the line end is where it was, so the payload begins at the same place
  refine ⟨?_, ?_, ?_, ?_, ?_, ?_, ?_⟩
  · rw [List.length_append]
    exact h.long.trans (Nat.le_add_right _ _)
  · rw [headD_append h.ne_nil]
    exact h.mark
  · rw [(findCrlf_append h.line x).1]
    exact h.line
  · rw [hnumber]
    exact h.number
  · rw [hnumber, hbehind, List.length_append]
    exact hlong.trans (Nat.le_add_right _ _)
  · rw [hnumber, hbehind, List.take_append_of_le_length ((Nat.le_add_right _ 2).trans hlong)]
    exact h.item_eq
  · rw [hnumber, hbehind, List.drop_append_of_le_length hlong, h.rest_eq]

/-- An error is an error, whatever follows. -/
theorem respItem_error_append (h : (respItem p).1 = .error) (x : Bytes) :
    (respItem (p ++ x)).1 = .error := by
  rw [respItem_error_iff] at h ⊢
  obtain ⟨hlong, hheader⟩ := h
  have hne : p ≠ [] := by
    rintro rfl
    exact absurd hlong (by decide)
  refine ⟨?_, fun hmark => ?_⟩
  · rw [List.length_append]
    exact hlong.trans (Nat.le_add_right _ _)
  · -- a missing mark stays missing; behind a mark the number was negative, and stays so
    rw [headD_append hne] at hmark
    obtain ⟨hline, hnumber⟩ := hheader hmark
    refine ⟨?_, ?_⟩
    · rw [(findCrlf_append hline x).1]
      exact hline
    · -- more digits of a negative number leave it negative
      rw [headerNumber_append_eq hne]
      exact strtoll_append_neg hnumber x

/-- A number that the next bytes make negative is an error then. -/
theorem IsItem.append_neg (h : IsItem p item rest) {x : Bytes}
    (hnumber : headerNumber (p ++ x) < 0) : (respItem (p ++ x)).1 = .error := by
  rw [respItem_error_iff]
  refine ⟨?_, fun _ => ⟨?_, hnumber⟩⟩
  · rw [List.length_append]
    exact h.long.trans (Nat.le_add_right _ _)
  · rw [(findCrlf_append h.line x).1]
    exact h.line

/-- A header that is not open has its number, whatever comes behind it. -/
theorem headerNumber_append (hopen : ¬OpenHeader p) (x : Bytes) :
    headerNumber (p ++ x) = headerNumber p := by
  have hne : p ≠ [] := by
    rintro rfl
    exact hopen rfl
  rw [headerNumber_append_eq hne]
  exact strtoll_append hopen x

/-- A number that does not grow is the same, whatever follows, or an error. -/
theorem IsItem.append_of_not_growing (h : IsItem p item rest) (hgrowing : ¬GrowingHeader p)
    (x : Bytes) : (respItem (p ++ x)).1 = .error ∨ IsItem (p ++ x) item (rest ++ x) := by
  by_cases hopen : OpenHeader p
  · -- behind a minus sign the number was 0, and it stays 0 or is negative
    have hminus : scanMinus (p.drop 1) = true := by
      by_contra hplus
      exact hgrowing ⟨hopen, (Bool.not_eq_true _).mp hplus⟩
    have hzero : headerNumber p = 0 := by
      have hle : (strtoll (p.drop 1 ++ [])).1 ≤ 0 := strtoll_append_minus hminus []
      rw [List.append_nil] at hle
      exact le_antisymm hle h.number
    have hle : headerNumber (p ++ x) ≤ 0 := by
      rw [headerNumber_append_eq h.ne_nil]
      exact strtoll_append_minus hminus x
    rcases hle.lt_or_eq with hneg | hsame
    · exact Or.inl (h.append_neg hneg)
    · exact Or.inr (h.append (hsame.trans hzero.symm))
  · -- the scan of the number has stopped, so the number is what it was
    exact Or.inr (h.append (headerNumber_append hopen x))

/-- Behind an open header there is no other argument. -/
theorem IsItem.last_of_open (h : IsItem p item rest) (hopen : OpenHeader p) :
    (respItem rest).1 ≠ .ok := by
  intro hok
  rcases hnext : respItem rest with ⟨status, item', rest'⟩
  rw [hnext] at hok
  obtain rfl : status = .ok := hok
  -- its mark would have stopped the scan of the number
  exact not_openHeader_of_mark h.rest_suffix (respItem_ok_iff.mp hnext).mark hopen

/-- The buffer is shorter than the largest number that a header can tell, by far. -/
def Fits (p : Bytes) : Prop := p.length < 2 ^ 62

/-- An item of a buffer that fits fits, and so does what stands behind it. -/
theorem IsItem.fits (h : IsItem p item rest) (hfits : Fits p) :
    headerNumber p < LLONG_MAX ∧ Fits rest := by
  have hbehind := (behindHeader_suffix p).length_le
  have hrest := h.rest_suffix.length_le
  have hpayload := h.payload
  rw [List.length_drop] at hbehind hrest
  -- the payload is in the buffer, so the number is no larger than the buffer is long
  rw [Fits] at hfits ⊢
  rw [LLONG_MAX]
  omega

/-- A digit behind an open header makes another argument, or none. -/
theorem IsItem.append_one (h : IsItem p item rest) (hopen : OpenHeader p) (hfits : Fits p)
    (rest' : Bytes) : ¬IsItem (p ++ [49]) item rest' := by
  intro h'
  have hnumber : headerNumber (p ++ [49]) ≠ headerNumber p := by
    rw [headerNumber_append_eq h.ne_nil]
    exact strtoll_append_one_ne hopen h.number (h.fits hfits).1
  -- the arguments are the same, so the numbers are
  have hlen : (headerNumber (p ++ [49])).toNat = (headerNumber p).toNat :=
    h'.length_item.symm.trans h.length_item
  have hpos := h.number
  have hpos' := h'.number
  omega

/-- Digits behind an open header make the parser wait for a payload that never comes. -/
theorem IsItem.append_nines (h : IsItem p item rest) (hgrowing : GrowingHeader p)
    (hfits : Fits p) : (respItem (p ++ nines)).1 = .incomplete := by
  have hnumber : headerNumber (p ++ nines) = LLONG_MAX := by
    rw [headerNumber_append_eq h.ne_nil]
    exact strtoll_append_nines hgrowing.1 hgrowing.2
  have hmark : (p ++ nines).headD 0 = 36 := by
    rw [headD_append h.ne_nil]
    exact h.mark
  have hlong : ¬(p ++ nines).length < 3 := by
    rw [List.length_append]
    exact not_lt.mpr (h.long.trans (Nat.le_add_right _ _))
  -- no buffer holds a payload of the largest length
  have hshort : (behindHeader (p ++ nines)).length < (headerNumber (p ++ nines)).toNat + 2 := by
    have hbehind := (behindHeader_suffix p).length_le
    have hnines : nines.length = 19 := rfl
    rw [List.length_drop] at hbehind
    rw [Fits] at hfits
    rw [hnumber, behindHeader_append h.line, List.length_append, hnines, LLONG_MAX]
    omega
  rw [respItem, if_neg hlong, if_neg (not_not.mpr hmark), (findCrlf_append h.line nines).1,
    if_neg (not_lt.mpr h.line), hnumber, if_neg (by decide), ← hnumber, if_pos hshort]

end Item

/-! ### The loop over the arguments -/

/-- Of the next `n` arguments, one has a header that decides and that more bytes may change. Its
number runs to the end of the buffer, and it is the last argument, or the number can grow and
there is enough behind the argument for the parser to miss the next mark. -/
def Unsettled : ℕ → Bytes → Prop
  | 0, _ => False
  | n + 1, p => (respItem p).1 = .ok ∧
      (OpenHeader p ∧ n = 0 ∨ GrowingHeader p ∧ 3 ≤ (respItem p).2.2.length ∨
        Unsettled n (respItem p).2.2)

/-- Whether a buffer is unsettled can be computed, item by item. -/
instance Unsettled.decidable : ∀ n p, Decidable (Unsettled n p)
  | 0, _ => inferInstanceAs (Decidable False)
  | n + 1, _ =>
    @instDecidableAnd _ _ _ (@instDecidableOr _ _ _
      (@instDecidableOr _ _ _ (Unsettled.decidable n _)))

section Items

variable {n : ℕ} {p item q rest : Bytes} {args all : List Bytes}

/-- A buffer is unsettled at its first item or behind it. -/
theorem IsItem.unsettled_succ (h : IsItem p item q) :
    Unsettled (n + 1) p ↔
      OpenHeader p ∧ n = 0 ∨ GrowingHeader p ∧ 3 ≤ q.length ∨ Unsettled n q := by
  rw [Unsettled, respItem_ok_iff.mpr h]
  exact and_iff_right rfl

/-- What is unsettled begins with an item. -/
theorem exists_item_of_unsettled (h : Unsettled (n + 1) p) : ∃ item q, IsItem p item q := by
  rcases hitem : respItem p with ⟨status, item, q⟩
  obtain ⟨hok, -⟩ := h
  rw [hitem] at hok
  obtain rfl : status = .ok := hok
  exact ⟨item, q, respItem_ok_iff.mp hitem⟩

/-- An iteration in front of an argument. -/
theorem IsItem.respItems_succ (h : IsItem p item q) (n : ℕ) (args : List Bytes) :
    respItems (n + 1) p args = respItems n q (args ++ [item]) := by
  rw [Minired.respItems_succ, respItem_ok_iff.mpr h]

/-- An error in the first item is one of them all. -/
theorem respItems_of_error (h : (respItem p).1 = .error) (n : ℕ) (args : List Bytes) :
    (respItems (n + 1) p args).1 = .error := by
  rw [respItems_succ]
  rcases hitem : respItem p with ⟨status, item, q⟩
  rw [hitem] at h
  obtain rfl : status = .error := h
  rfl

/-- So is an item that is not complete. -/
theorem respItems_of_incomplete (h : (respItem p).1 = .incomplete) (n : ℕ) (args : List Bytes) :
    (respItems (n + 1) p args).1 = .incomplete := by
  rw [respItems_succ]
  rcases hitem : respItem p with ⟨status, item, q⟩
  rw [hitem] at h
  obtain rfl : status = .incomplete := h
  rfl

/-- A loop that ends in an error does so in its first iteration, or takes an argument. -/
theorem respItems_error_succ (h : (respItems (n + 1) p args).1 = .error) :
    (respItem p).1 = .error ∨
      ∃ item q, IsItem p item q ∧ (respItems n q (args ++ [item])).1 = .error := by
  rw [respItems_succ] at h
  rcases hitem : respItem p with ⟨_ | _ | _, item, q⟩
  · rw [hitem] at h
    exact Or.inr ⟨item, q, respItem_ok_iff.mp hitem, h⟩
  · rw [hitem] at h
    cases h
  · exact Or.inl rfl

/-- **A command** with settled headers is read as before. -/
theorem respItems_append (h : respItems n p args = (.ok, all, rest)) (hsettled : ¬Unsettled n p)
    (x : Bytes) : respItems n (p ++ x) args = (.ok, all, rest ++ x) := by
  induction n generalizing p args with
  | zero =>
    cases h
    rfl
  | succ n ih =>
    obtain ⟨item, q, hitem, htail⟩ := respItems_ok_succ h
    rw [hitem.unsettled_succ, not_or, not_or] at hsettled
    obtain ⟨hlast, -, hsettled⟩ := hsettled
    -- an open header would be that of the last argument, and that one is settled
    have hclosed : ¬OpenHeader p := by
      intro hopen
      cases n with
      | zero => exact hlast ⟨hopen, rfl⟩
      | succ n =>
        obtain ⟨item', q', hnext, -⟩ := respItems_ok_succ htail
        exact hitem.last_of_open hopen (by rw [respItem_ok_iff.mpr hnext])
    rw [(hitem.append (headerNumber_append hclosed x)).respItems_succ]
    exact ih htail hsettled

/-- **An error** behind settled headers stays an error. -/
theorem respItems_error_append (h : (respItems n p args).1 = .error) (hsettled : ¬Unsettled n p)
    (x : Bytes) : (respItems n (p ++ x) args).1 = .error := by
  induction n generalizing p args with
  | zero => cases h
  | succ n ih =>
    rcases respItems_error_succ h with herror | ⟨item, q, hitem, htail⟩
    · exact respItems_of_error (respItem_error_append herror x) n args
    rw [hitem.unsettled_succ, not_or, not_or] at hsettled
    obtain ⟨-, hgrows, hsettled⟩ := hsettled
    have hgrowing : ¬GrowingHeader p := by
      intro hgrowing
      cases n with
      | zero => cases htail
      | succ n =>
        -- the error is right behind the argument, where a mark is missing
        rcases respItems_error_succ htail with herror | ⟨item', q', hnext, -⟩
        · exact hgrows ⟨hgrowing, (respItem_error_iff.mp herror).1⟩
        · exact hitem.last_of_open hgrowing.1 (by rw [respItem_ok_iff.mpr hnext])
    rcases hitem.append_of_not_growing hgrowing x with herror | hsame
    · exact respItems_of_error herror n args
    · rw [hsame.respItems_succ]
      exact ih htail hsettled

/-- What digits do behind an unsettled header: one makes another command, or none, of what was
a command, or nineteen make the parser wait where it had seen an error. -/
theorem respItems_unsettled (h : Unsettled n p) (hfits : Fits p) (args : List Bytes) :
    (∃ all rest, respItems n p args = (.ok, all, rest) ∧
        ∀ rest', respItems n (p ++ [49]) args ≠ (.ok, all, rest')) ∨
      (respItems n p args).1 = .error ∧ (respItems n (p ++ nines) args).1 = .incomplete := by
  induction n generalizing p args with
  | zero => exact absurd h id
  | succ n ih =>
    obtain ⟨item, q, hitem⟩ := exists_item_of_unsettled h
    rw [hitem.respItems_succ]
    rw [hitem.unsettled_succ] at h
    -- an open last header: the argument is there, and with one digit more it is another one
    have hlast : OpenHeader p → n = 0 → ∃ all rest, respItems n q (args ++ [item]) =
        (.ok, all, rest) ∧ ∀ rest', respItems (n + 1) (p ++ [49]) args ≠ (.ok, all, rest') := by
      rintro hopen rfl
      refine ⟨_, q, rfl, fun rest' h' => ?_⟩
      obtain ⟨item', q', hitem', htail'⟩ := respItems_ok_succ h'
      obtain ⟨-, hargs⟩ := Prod.mk.inj htail'
      obtain rfl := List.singleton_inj.mp (List.append_cancel_left (Prod.mk.inj hargs).1)
      exact hitem.append_one hopen hfits q' hitem'
    rcases h with ⟨hopen, hn⟩ | ⟨hgrowing, hlong⟩ | htail
    · exact Or.inl (hlast hopen hn)
    · cases n with
      | zero => exact Or.inl (hlast hgrowing.1 rfl)
      | succ n =>
        -- behind the argument no mark can come, and the digits make the number too large
        refine Or.inr ⟨respItems_of_error ?_ n _,
          respItems_of_incomplete (hitem.append_nines hgrowing hfits) _ _⟩
        exact respItem_error_iff.mpr
          ⟨hlong, fun hmark => absurd hgrowing.1 (not_openHeader_of_mark hitem.rest_suffix hmark)⟩
    · -- the unsettled header is further back, so that of this argument is not open
      have hclosed : ¬OpenHeader p := by
        intro hopen
        cases n with
        | zero => exact htail
        | succ n =>
          obtain ⟨item', q', hnext⟩ := exists_item_of_unsettled htail
          exact hitem.last_of_open hopen (by rw [respItem_ok_iff.mpr hnext])
      rw [(hitem.append (headerNumber_append hclosed _)).respItems_succ,
        (hitem.append (headerNumber_append hclosed _)).respItems_succ]
      exact ih htail (hitem.fits hfits).2 _

end Items

/-! ### The whole command -/

/-- No header that decides can change: the number of arguments is not one that can grow from 0
where the parser would then wait, and the header of no argument is unsettled. -/
def SettledBuffer (b : Bytes) : Prop :=
  b.head? = some 42 → 0 ≤ findCrlf b →
    ¬(GrowingHeader b ∧ headerNumber b = 0 ∧ (behindHeader b).length ≤ 1) ∧
      ¬Unsettled (headerNumber b).toNat (behindHeader b)

/-- Whether a buffer is settled can be computed. -/
instance : DecidablePred SettledBuffer := fun _ =>
  inferInstanceAs (Decidable (_ → _ → ¬(_ ∧ _ ∧ _) ∧ ¬_))

/-- What the parser says of the buffer holds of every buffer that begins with it. -/
def Stable (b : Bytes) : Prop :=
  ∀ x, (∀ args consumed, respParse b = ⟨.ok, args, consumed⟩ →
      respParse (b ++ x) = ⟨.ok, args, consumed⟩) ∧
    ((respParse b).status = .error → (respParse (b ++ x)).status = .error)

section Stable

variable {b : Bytes}

/-- A buffer that is not complete has decided nothing yet. -/
theorem stable_of_incomplete (h : (respParse b).status = .incomplete) : Stable b := by
  refine fun x => ⟨fun args consumed hok => ?_, fun herror => ?_⟩
  · rw [hok] at h
    cases h
  · rw [h] at herror
    cases herror

/-- An error that stays one is stable. -/
theorem stable_of_error (h : ∀ x, (respParse (b ++ x)).status = .error) : Stable b := by
  refine fun x => ⟨fun args consumed hok => ?_, fun _ => h x⟩
  have hb := h []
  rw [List.append_nil, hok] at hb
  cases hb

/-- An inline command is found by its line end alone. -/
theorem stable_inline (hinline : b.head? ≠ some 42) : Stable b := by
  cases b with
  | nil => exact stable_of_incomplete rfl
  | cons c b =>
    have hc : c ≠ 42 := fun h => hinline (congrArg some h)
    by_cases hline : findCrlf (c :: b) < 0
    · refine stable_of_incomplete ?_
      rw [respParse, if_pos hc]
      dsimp only
      rw [if_pos hline]
    · intro x
      -- the line end that is there stays the first one
      obtain ⟨hsame, hlen⟩ := findCrlf_append (not_lt.mp hline) x
      have hparse : respParse (c :: b ++ x) = respParse (c :: b) := by
        rw [List.cons_append, respParse, if_pos hc, respParse, if_pos hc]
        dsimp only
        rw [← List.cons_append, hsame,
          List.take_append_of_le_length ((Nat.le_add_right _ 2).trans hlen)]
      rw [hparse]
      exact ⟨fun _ _ h => h, fun h => h⟩

end Stable

section Array

variable {b : Bytes} (hstar : b.head? = some 42)

include hstar in
/-- More bytes leave the star in front. -/
theorem head?_append (x : Bytes) : (b ++ x).head? = some 42 := by
  rw [List.head?_append, hstar]
  rfl

include hstar in
/-- A buffer with a star in front is not empty. -/
theorem ne_nil_of_star : b ≠ [] := by
  rintro rfl
  cases hstar

include hstar in
/-- A count that is not positive is an error. -/
theorem respParse_nonpos (hline : 0 ≤ findCrlf b) (hnumber : headerNumber b ≤ 0) :
    (respParse b).status = .error := by
  rw [respParse_array hstar, if_neg (not_lt.mpr hline), if_pos hnumber]

section Positive

variable (hline : 0 ≤ findCrlf b) (hnumber : 0 < headerNumber b)

include hstar hline hnumber in
/-- The status of the command is that of the loop over its arguments. -/
theorem respParse_status :
    (respParse b).status = (respItems (headerNumber b).toNat (behindHeader b) []).1 := by
  rw [respParse_array hstar, if_neg (not_lt.mpr hline), if_neg (not_le.mpr hnumber)]
  rcases respItems (headerNumber b).toNat (behindHeader b) [] with ⟨_ | _ | _, args, rest⟩
  · rfl
  · rfl
  · rfl

include hstar hline hnumber in
/-- Items that are all there are a command. -/
theorem respParse_of_items {args : List Bytes} {rest : Bytes}
    (h : respItems (headerNumber b).toNat (behindHeader b) [] = (.ok, args, rest)) :
    respParse b = ⟨.ok, args, b.length - rest.length⟩ := by
  rw [respParse_array hstar, if_neg (not_lt.mpr hline), if_neg (not_le.mpr hnumber), h]

end Positive

variable (hline : 0 ≤ findCrlf b)

include hline in
/-- A line end that is there stays there. -/
theorem findCrlf_append_nonneg (x : Bytes) : 0 ≤ findCrlf (b ++ x) := by
  rw [(findCrlf_append hline x).1]
  exact hline

include hstar hline in
/-- Behind an open header there is no mark, and as soon as the parser looks for one it sees
that. -/
theorem respParse_append_open (hopen : OpenHeader b) (hne : behindHeader b ≠ []) {x : Bytes}
    (hlong : 3 ≤ (behindHeader b ++ x).length) : (respParse (b ++ x)).status = .error := by
  have hstar' := head?_append hstar x
  have hline' := findCrlf_append_nonneg hline x
  by_cases hnumber : headerNumber (b ++ x) ≤ 0
  · exact respParse_nonpos hstar' hline' hnumber
  obtain ⟨n, hn⟩ := headerNumber_succ (not_le.mp hnumber)
  rw [respParse_status hstar' hline' (not_le.mp hnumber), hn, behindHeader_append hline]
  -- the first byte that is there is no mark
  refine respItems_of_error (respItem_error_iff.mpr ⟨hlong, fun hmark => ?_⟩) n []
  rw [headD_append hne] at hmark
  exact absurd hopen (not_openHeader_of_mark (behindHeader_suffix b) hmark)

include hstar hline in
/-- No argument, and none to come: the error stays, unless the number can grow and the parser
would wait then. -/
theorem stable_nonpos (hnumber : headerNumber b ≤ 0)
    (hsettled : ¬(GrowingHeader b ∧ headerNumber b = 0 ∧ (behindHeader b).length ≤ 1)) :
    Stable b := by
  refine stable_of_error fun x => ?_
  have hne := ne_nil_of_star hstar
  -- the number is the same, or at most 0 behind a minus sign, or it grows
  by_cases hopen : OpenHeader b
  · cases hminus : scanMinus (b.drop 1) with
    | true =>
      refine respParse_nonpos (head?_append hstar x) (findCrlf_append_nonneg hline x) ?_
      rw [headerNumber_append_eq hne]
      -- a minus sign, so the number stays at most 0
      exact strtoll_append_minus hminus x
    | false =>
      -- no sign, so the number is 0 and digits would make it grow
      have hzero : headerNumber b = 0 := by
        refine le_antisymm hnumber ?_
        rw [headerNumber, strtoll_value, hminus]
        exact le_max_of_le_right (le_min (by decide) (Int.natCast_nonneg _))
      have hlong : 2 ≤ (behindHeader b).length := by
        by_contra hshort
        exact hsettled ⟨⟨hopen, hminus⟩, hzero, by omega⟩
      cases x with
      | nil =>
        rw [List.append_nil]
        exact respParse_nonpos hstar hline hnumber
      | cons c x =>
        refine respParse_append_open hstar hline hopen ?_ ?_
        · exact List.ne_nil_of_length_pos (by omega)
        · rw [List.length_append, List.length_cons]
          omega
  · refine respParse_nonpos (head?_append hstar x) (findCrlf_append_nonneg hline x) ?_
    -- the scan of the number has stopped
    rw [headerNumber_append hopen]
    exact hnumber

include hstar hline in
/-- The loop over the arguments decides. -/
theorem stable_pos (hnumber : 0 < headerNumber b)
    (hsettled : ¬Unsettled (headerNumber b).toNat (behindHeader b)) : Stable b := by
  obtain ⟨n, hn⟩ := headerNumber_succ hnumber
  refine fun x => ⟨fun args consumed hok => ?_, fun herror => ?_⟩
  · obtain ⟨-, -, rest, hitems, rfl⟩ := respParse_array_ok hstar hok
    -- an argument is there, and its mark has stopped the scan of the number
    have hclosed : ¬OpenHeader b := by
      rw [hn] at hitems
      obtain ⟨item, q, hitem, -⟩ := respItems_ok_succ hitems
      exact not_openHeader_of_mark (behindHeader_suffix b) hitem.mark
    have hsame := headerNumber_append hclosed x
    have happend := respItems_append hitems hsettled x
    rw [← hsame, ← behindHeader_append hline] at happend
    rw [respParse_of_items (head?_append hstar x) (findCrlf_append_nonneg hline x)
      (by rw [hsame]; exact hnumber) happend, List.length_append, List.length_append,
      Nat.add_sub_add_right]
  · rw [respParse_status hstar hline hnumber] at herror
    by_cases hopen : OpenHeader b
    · -- the error is in front of the first argument
      rw [hn] at herror
      rcases respItems_error_succ herror with hfirst | ⟨item, q, hitem, -⟩
      · have hlong := (respItem_error_iff.mp hfirst).1
        refine respParse_append_open hstar hline hopen ?_ ?_
        · exact List.ne_nil_of_length_pos (by omega)
        · rw [List.length_append]
          exact hlong.trans (Nat.le_add_right _ _)
      · exact absurd hopen (not_openHeader_of_mark (behindHeader_suffix b) hitem.mark)
    · -- the number is what it was, and the loop meets the error again
      have hsame := headerNumber_append hopen x
      rw [respParse_status (head?_append hstar x) (findCrlf_append_nonneg hline x)
        (by rw [hsame]; exact hnumber), hsame, behindHeader_append hline]
      exact respItems_error_append herror hsettled x

end Array

/-- **Settled buffers** are stable. -/
theorem SettledBuffer.stable {b : Bytes} (h : SettledBuffer b) : Stable b := by
  by_cases hstar : b.head? = some 42
  · by_cases hline : 0 ≤ findCrlf b
    · obtain ⟨hcount, hitems⟩ := h hstar hline
      rcases le_or_gt (headerNumber b) 0 with hnumber | hnumber
      · exact stable_nonpos hstar hline hnumber hcount
      · exact stable_pos hstar hline hnumber hitems
    · refine stable_of_incomplete ?_
      rw [respParse_array hstar, if_pos (not_le.mp hline)]
  · exact stable_inline hstar

/-- **Unsettled buffers** are not: digits change what the parser says. -/
theorem not_stable_of_not_settled {b : Bytes} (hfits : Fits b) (h : ¬SettledBuffer b) :
    ∃ x, (∃ args consumed, respParse b = ⟨.ok, args, consumed⟩ ∧
        ∀ consumed', respParse (b ++ x) ≠ ⟨.ok, args, consumed'⟩) ∨
      (respParse b).status = .error ∧ (respParse (b ++ x)).status = .incomplete := by
  obtain ⟨hstar, h⟩ := Classical.not_imp.mp h
  obtain ⟨hline, h⟩ := Classical.not_imp.mp h
  rw [not_and_or, not_not, not_not] at h
  have hne := ne_nil_of_star hstar
  rcases h with ⟨hgrowing, hzero, hshort⟩ | hunsettled
  · -- one digit more announces an argument
    refine ⟨[49], Or.inr ⟨respParse_nonpos hstar hline hzero.le, ?_⟩⟩
    have hnumber : 0 < headerNumber (b ++ [49]) := by
      rw [headerNumber_append_eq hne]
      exact strtoll_append_one_pos hgrowing.1 hgrowing.2
    obtain ⟨n, hn⟩ := headerNumber_succ hnumber
    rw [respParse_status (head?_append hstar _) (findCrlf_append_nonneg hline _) hnumber, hn,
      behindHeader_append hline]
    refine respItems_of_incomplete ?_ n []
    rw [respItem, if_pos]
    rw [List.length_append, List.length_singleton]
    omega
  · have hpos : 0 < headerNumber b := by
      by_contra hnonpos
      rw [Int.toNat_of_nonpos (not_lt.mp hnonpos)] at hunsettled
      exact hunsettled
    -- the number of arguments is settled, so it is one of them that is not
    have hclosed : ¬OpenHeader b := by
      obtain ⟨n, hn⟩ := headerNumber_succ hpos
      rw [hn] at hunsettled
      obtain ⟨item, q, hitem⟩ := exists_item_of_unsettled hunsettled
      exact not_openHeader_of_mark (behindHeader_suffix b) hitem.mark
    have hsame := fun x => headerNumber_append hclosed x
    have hfits' : Fits (behindHeader b) := by
      have hle := (behindHeader_suffix b).length_le
      rw [List.length_drop] at hle
      rw [Fits] at hfits ⊢
      omega
    rcases respItems_unsettled hunsettled hfits' [] with ⟨all, rest, hok, hother⟩ | ⟨herror, hwaits⟩
    · -- the last argument grows by a digit, and is another one or not all there
      refine ⟨[49], Or.inl ⟨all, _, respParse_of_items hstar hline hpos hok, ?_⟩⟩
      intro consumed' hsame'
      obtain ⟨-, -, rest', hitems, -⟩ := respParse_array_ok (head?_append hstar _) hsame'
      rw [hsame, behindHeader_append hline] at hitems
      exact hother rest' hitems
    · -- the parser waits for the payload that the nines announce, and does not reach the error
      refine ⟨nines, Or.inr ⟨?_, ?_⟩⟩
      · rw [respParse_status hstar hline hpos]
        exact herror
      · rw [respParse_status (head?_append hstar _) (findCrlf_append_nonneg hline _)
          (by rw [hsame]; exact hpos), hsame, behindHeader_append hline]
        exact hwaits

/-- **A stable buffer is settled**: of one that is not, some more bytes change the result. -/
theorem settled_of_stable {b : Bytes} (hfits : Fits b) (h : Stable b) : SettledBuffer b := by
  by_contra hunsettled
  obtain ⟨x, ⟨args, consumed, hok, hother⟩ | ⟨herror, hwaits⟩⟩ :=
    not_stable_of_not_settled hfits hunsettled
  · exact hother consumed ((h x).1 args consumed hok)
  · rw [(h x).2 herror] at hwaits
    cases hwaits

end Minired
