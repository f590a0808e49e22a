import Minired.RespPointers
import Minired.Lib.Words

/-!
# Inline commands

A buffer that does not begin with `*` is a line with a command: `resp_parse` looks for the first
CRLF and splits what stands in front of it at the blanks, with three loops that share their
positions. What this computes needs none of them: the arguments are the maximal runs of bytes that
are no blanks (`Words.MaximalRuns`), and everything that is not a blank, a lone CR or LF and a NUL
among them, is part of an argument.

**`resp_parse_inline`**: without a CRLF the parser waits; with the first one at `i`, the arguments
are the runs of the first `i` bytes, and a line without any is an error. So words that are joined
with blanks are parsed back, whatever follows the line.
-/

namespace Minired

open Words

/-- A CRLF at a position of the buffer. -/
def CrlfAt (buf : Bytes) (i : ℕ) : Prop := buf[i]? = some 13 ∧ buf[i + 1]? = some 10

/-- The first CRLF. -/
structure FirstCrlf (buf : Bytes) (i : ℕ) : Prop where
  here : CrlfAt buf i
  first : ∀ j < i, ¬CrlfAt buf j

/-- Words, each one behind the number of blanks in front of it, and the blanks at the end. -/
def inlineLine (words : List (ℕ × Bytes)) (trail : ℕ) : Bytes :=
  words.flatMap (fun w => List.replicate w.1 32 ++ w.2) ++ List.replicate trail 32

/-! ### The line end -/

variable {buf line : Bytes} {i : ℕ}

/-- **`find_crlf` in words**: the result is the first CRLF, if there is one. -/
theorem crlfIndex_spec (buf : Bytes) :
    (crlfIndex buf).elim (∀ i, ¬CrlfAt buf i) (FirstCrlf buf) := by
  fun_induction crlfIndex buf with
  | case1 b c rest h =>
    obtain ⟨rfl, rfl⟩ := h
    exact ⟨⟨rfl, rfl⟩, fun j hj => absurd hj (Nat.not_lt_zero j)⟩
  | case2 b c rest h ih =>
    have hzero : ¬CrlfAt (b :: c :: rest) 0 := by
      rintro ⟨hb, hc⟩
      exact h ⟨Option.some.inj hb, Option.some.inj hc⟩
    rcases hindex : crlfIndex (c :: rest) with _ | j
    · rw [hindex] at ih
      rintro (_ | i)
      · exact hzero
      · exact ih i
    · rw [hindex] at ih
      refine ⟨ih.here, ?_⟩
      rintro (_ | k) hk
      · exact hzero
      · exact ih.first k (Nat.lt_of_succ_lt_succ hk)
  | case3 buf h =>
    -- fewer than two bytes
    rintro i ⟨hcr, hlf⟩
    rcases buf with _ | ⟨b, _ | ⟨c, rest⟩⟩
    · cases hcr
    · cases hlf
    · exact h b c rest rfl

/-- Without a CRLF the loop ends. -/
theorem findCrlf_none (h : ∀ i, ¬CrlfAt buf i) : findCrlf buf = -1 := by
  have hspec := crlfIndex_spec buf
  rw [findCrlf_eq_elim]
  rcases hindex : crlfIndex buf with _ | j
  · rfl
  · rw [hindex] at hspec
    exact absurd hspec.here (h j)

/-- The first CRLF is where the loop stops. -/
theorem findCrlf_first (hsize : buf.length < 2 ^ 31) (h : FirstCrlf buf i) :
    findCrlf buf = i := by
  have hspec := crlfIndex_spec buf
  have hlt : i < buf.length := (List.getElem?_eq_some_iff.mp h.here.1).1
  rw [findCrlf_eq_elim]
  rcases hindex : crlfIndex buf with _ | j
  · rw [hindex] at hspec
    exact absurd h.here (hspec i)
  · rw [hindex] at hspec
    -- neither of two first ones is in front of the other
    have hij : j = i := le_antisymm (not_lt.mp fun hlt => hspec.first i hlt h.here)
      (not_lt.mp fun hlt => h.first j hlt hspec.here)
    rw [hij, Option.elim_some]
    exact Int.bmod_eq_of_le (by omega) (by omega)

/-! ### The words -/

/-- **The three loops** find the maximal runs. -/
theorem maximalRuns_inlineLoop (fuel : ℕ) (line : Bytes) (hfuel : line.length ≤ fuel) :
    MaximalRuns (· = 32) line (inlineLoop fuel line) := by
  induction fuel generalizing line with
  | zero =>
    rw [List.length_eq_zero_iff.mp (Nat.le_zero.mp hfuel)]
    exact maximalRuns_nil
  | succ fuel ih =>
    have hblank : ∀ a ∈ line.takeWhile (· = 32), a = 32 := fun a ha => by
      simpa using List.mem_takeWhile_imp ha
    have hsplit : line.takeWhile (· = 32) ++ line.dropWhile (· = 32) = line :=
      List.takeWhile_append_dropWhile
    have hskip := (List.dropWhile_suffix (· = (32 : UInt8)) (l := line)).length_le
    have hstop := List.head?_dropWhile_not (· = (32 : UInt8)) line
    rw [inlineLoop]
    rcases hrest : line.dropWhile (· = 32) with _ | ⟨b, rest⟩
    · -- blanks up to the end
      rw [hrest] at hsplit ⊢
      have hnil : MaximalRuns (· = (32 : UInt8)) [] [] := maximalRuns_nil
      have hwords := hnil.blank hblank
      rwa [hsplit] at hwords
    · rw [hrest] at hsplit hskip hstop ⊢
      have hb : b ≠ 32 := of_decide_eq_false hstop
      have htake : (b :: rest).takeWhile (· ≠ 32) = b :: rest.takeWhile (· ≠ 32) :=
        List.takeWhile_cons_of_pos (decide_eq_true hb)
      have hdrop : (b :: rest).dropWhile (· ≠ 32) = rest.dropWhile (· ≠ 32) :=
        List.dropWhile_cons_of_pos (decide_eq_true hb)
      have hword : ∀ a ∈ (b :: rest).takeWhile (· ≠ 32), a ≠ 32 := fun a ha => by
        simpa using List.mem_takeWhile_imp ha
      have hend : ∀ a ∈ ((b :: rest).dropWhile (· ≠ 32)).head?, a = 32 := by
        intro a ha
        have hhead := List.head?_dropWhile_not (· ≠ (32 : UInt8)) (b :: rest)
        rw [Option.mem_def.mp ha] at hhead
        simpa using hhead
      -- a word takes a byte at least, so the fuel is enough for what is behind it
      have hlater := ih ((b :: rest).dropWhile (· ≠ 32)) (by
        have hle := (List.dropWhile_suffix (· ≠ (32 : UInt8)) (l := rest)).length_le
        rw [List.length_cons] at hskip
        rw [hdrop]
        omega)
      have hwords := (hlater.word (htake ▸ List.cons_ne_nil _ _) hword hend).blank hblank
      rw [List.takeWhile_append_dropWhile, hsplit] at hwords
      exact hwords

/-- The arguments are the words of the line. -/
theorem maximalRuns_inlineArgs (line : Bytes) : MaximalRuns (· = 32) line (inlineArgs line) :=
  maximalRuns_inlineLoop _ line le_rfl

/-! ### The parser -/

/-- A buffer that is not an array, without a CRLF. -/
theorem respParse_no_crlf (hinline : buf.head? ≠ some 42) (h : ∀ i, ¬CrlfAt buf i) :
    respParse buf = ⟨.incomplete, [], 0⟩ := by
  cases buf with
  | nil => rfl
  | cons b rest =>
    have hb : b ≠ 42 := fun hb => hinline (congrArg some hb)
    rw [respParse, if_pos hb, findCrlf_none h]
    rfl

/-- The line in front of the first CRLF, when it has these words. -/
theorem respParse_line (hinline : buf.head? ≠ some 42) (hsize : buf.length < 2 ^ 31)
    (h : FirstCrlf buf i) {words : List Bytes} (hwords : MaximalRuns (· = 32) (buf.take i) words) :
    respParse buf = if words = [] then ⟨.error, [], 0⟩ else ⟨.ok, words, i + 2⟩ := by
  obtain rfl := (maximalRuns_inlineArgs (buf.take i)).unique hwords
  cases buf with
  | nil => exact absurd h.here.1 (Option.some_ne_none _).symm
  | cons b rest =>
    have hb : b ≠ 42 := fun hb => hinline (congrArg some hb)
    rw [respParse, if_pos hb, findCrlf_first hsize h]
    dsimp only
    rw [if_neg (by omega), Int.toNat_natCast]

/-- A line of words without a CR ends at its CRLF. -/
theorem firstCrlf_line (hline : 13 ∉ line) (rest : Bytes) :
    FirstCrlf (line ++ crlf ++ rest) line.length := by
  have hspec := crlfIndex_spec (line ++ crlf ++ rest)
  rwa [crlfIndex_line hline] at hspec

/-- The first byte of a line of words is a blank or belongs to the first word. -/
theorem head?_inlineLine {words : List (ℕ × Bytes)} (hne : words ≠ [])
    (hwords : ∀ w ∈ words, w.2 ≠ []) (hstar : ∀ w ∈ words.head?, w.2.head? ≠ some 42) (trail : ℕ)
    (rest : Bytes) : (inlineLine words trail ++ rest).head? ≠ some 42 := by
  obtain ⟨⟨n, word⟩, words, rfl⟩ := List.exists_cons_of_ne_nil hne
  obtain ⟨b, word, rfl⟩ := List.exists_cons_of_ne_nil (hwords _ List.mem_cons_self)
  rw [inlineLine, List.flatMap_cons]
  cases n with
  | zero => exact hstar _ rfl
  | succ n => exact fun h => absurd (Option.some.inj h) (by decide)

/-- The words of a line that is made up of them. -/
theorem maximalRuns_inlineLine (words : List (ℕ × Bytes)) (trail : ℕ)
    (hne : ∀ w ∈ words, w.2 ≠ []) (hblank : ∀ w ∈ words, ∀ b ∈ w.2, b ≠ 32)
    (hapart : ∀ w ∈ words.tail, 0 < w.1) :
    MaximalRuns (· = 32) (inlineLine words trail) (words.map Prod.snd) := by
  have htrail : ∀ a ∈ List.replicate trail (32 : UInt8), a = 32 :=
    fun a ha => List.eq_of_mem_replicate ha
  have hjoined := maximalRuns_joined (words.map fun w => (List.replicate w.1 32, w.2))
    (List.forall_mem_map.mpr fun w _ a ha => List.eq_of_mem_replicate ha)
    (List.forall_mem_map.mpr hne) (List.forall_mem_map.mpr hblank)
    (by
      rw [← List.map_tail]
      refine List.forall_mem_map.mpr fun w hw => ?_
      exact List.ne_nil_of_length_pos (by rw [List.length_replicate]; exact hapart w hw))
    htrail
  rwa [List.flatMap_map, List.map_map] at hjoined

/-- **Inline commands.** Without a CRLF the parser waits; with the first one at `i` the arguments
are the maximal runs of the `i` bytes in front of it. Words that are joined with blanks are parsed
back. -/
theorem resp_parse_inline :
    (∀ buf : Bytes, buf.length < 2 ^ 31 → buf.head? ≠ some 42 →
      ((∀ i, ¬CrlfAt buf i) → respParseAt buf = .ok ⟨.incomplete, [], 0⟩) ∧
      ∀ i, FirstCrlf buf i → ∃ words, MaximalRuns (· = 32) (buf.take i) words ∧
        respParseAt buf = .ok (if words = [] then ⟨.error, [], 0⟩ else ⟨.ok, words, i + 2⟩)) ∧
    ∀ (words : List (ℕ × Bytes)) (trail : ℕ) (rest : Bytes),
      words ≠ [] → (∀ w ∈ words, w.2 ≠ [] ∧ ∀ b ∈ w.2, b ≠ 32 ∧ b ≠ 13 ∧ b ≠ 10) →
      (∀ w ∈ words.head?, w.2.head? ≠ some 42) → (∀ w ∈ words.tail, 0 < w.1) →
      (inlineLine words trail ++ crlf ++ rest).length < 2 ^ 31 →
      respParseAt (inlineLine words trail ++ crlf ++ rest) =
        .ok ⟨.ok, words.map Prod.snd, (inlineLine words trail).length + 2⟩ := by
  constructor
  · intro buf hsize hinline
    rw [respParseAt_eq hsize]
    refine ⟨fun h => congrArg _ (respParse_no_crlf hinline h), fun i h => ?_⟩
    have hwords := maximalRuns_inlineArgs (buf.take i)
    exact ⟨_, hwords, congrArg _ (respParse_line hinline hsize h hwords)⟩
  · intro words trail rest hne hwords hstar hapart hsize
    -- there is no CR in the line
    have hline : 13 ∉ inlineLine words trail := by
      intro hmem
      rcases List.mem_append.mp hmem with hmem | hmem
      · obtain ⟨w, hw, hmem⟩ := List.mem_flatMap.mp hmem
        rcases List.mem_append.mp hmem with hmem | hmem
        · exact absurd (List.eq_of_mem_replicate hmem) (by decide)
        · exact ((hwords w hw).2 13 hmem).2.1 rfl
      · exact absurd (List.eq_of_mem_replicate hmem) (by decide)
    have hinline := head?_inlineLine hne (fun w hw => (hwords w hw).1) hstar trail (crlf ++ rest)
    have hruns := maximalRuns_inlineLine words trail (fun w hw => (hwords w hw).1)
      (fun w hw b hb => ((hwords w hw).2 b hb).1) hapart
    have hsome : words.map Prod.snd ≠ [] := fun h => hne (List.map_eq_nil_iff.mp h)
    rw [← List.append_assoc] at hinline
    have htake : (inlineLine words trail ++ crlf ++ rest).take (inlineLine words trail).length =
        inlineLine words trail := by
      rw [List.append_assoc, List.take_left]
    rw [respParseAt_eq hsize,
      respParse_line hinline hsize (firstCrlf_line hline rest) (htake.symm ▸ hruns), if_neg hsome]

/-- A line that is not complete, an empty one, and one with two words and more bytes behind it. -/
theorem resp_parse_inline_set :
    respParseAt (ascii "SET k") = .ok ⟨.incomplete, [], 0⟩ ∧
      respParseAt crlf = .ok ⟨.error, [], 0⟩ ∧
      respParseAt (inlineLine [(1, ascii "SET"), (2, ascii "k")] 1 ++ crlf ++ ascii "PING") =
        .ok ⟨.ok, [ascii "SET", ascii "k"], 10⟩ := by
  have hwords : ∀ w ∈ [(1, ascii "SET"), (2, ascii "k")],
      w.2 ≠ [] ∧ ∀ b ∈ w.2, b ≠ 32 ∧ b ≠ 13 ∧ b ≠ 10 := by decide +kernel
  refine ⟨?_, ?_, ?_⟩
  · exact (resp_parse_inline.1 (ascii "SET k") (by decide) (by decide)).1
      (crlfIndex_spec (ascii "SET k"))
  · obtain ⟨words, hruns, hparse⟩ := (resp_parse_inline.1 crlf (by decide) (by decide)).2 0
      (crlfIndex_spec crlf)
    rwa [if_pos (hruns.unique maximalRuns_nil)] at hparse
  · exact resp_parse_inline.2 _ 1 (ascii "PING") (by decide) hwords (by decide) (by decide)
      (by decide)

end Minired
