import Minired.LiveKey
import Minired.Lib.Glob

/-!
# Patterns of keys

`KEYS` promises the keys that match a pattern in which `*` stands for any text and `?` for one
character. `patternPieces` reads a pattern that way, and `Glob.Matches` says what matches it.

`glob_match` tries the pattern behind a star at every byte of what is left of the string, but not
at its end. The end matters only when nothing but stars follows, so the matcher misses exactly
the strings that need it there: the pattern ends in two stars, and what stands in front of them
matches the whole string and no shorter prefix (`NeedsEnd`, `globMatch_correct_iff`). It never
reports a string that does not match.
-/

namespace Minired

open Glob

/-- What a character of a pattern stands for. -/
def patternPiece (p : UInt8) : Piece UInt8 :=
  if p = 42 then .star else if p = 63 then .any else .lit p

/-- A pattern, character by character. -/
def patternPieces (pattern : Bytes) : List (Piece UInt8) := pattern.map patternPiece

/-- **The reference.** The string can be split so that each star of the pattern matches some part,
each question mark one character, and every other character itself. -/
def GlobMatches (pattern str : Bytes) : Prop := Matches (patternPieces pattern) str

/-- Two stars at the end of the pattern leave something to the last of them: what stands in front
of both matches already a prefix that is not the whole string. -/
def LastStarFits (pattern str : Bytes) : Prop :=
  ∀ front, pattern = front ++ [42, 42] → ∃ u v, str = u ++ v ∧ v ≠ [] ∧ GlobMatches front u

/-- The pattern ends in two stars, and what stands in front of them matches the whole string and
no shorter prefix: the stars have only the end of the string to match. -/
def NeedsEnd (pattern str : Bytes) : Prop :=
  ∃ front, pattern = front ++ [42, 42] ∧ GlobMatches front str ∧
    ∀ u v, str = u ++ v → GlobMatches front u → v = []

/-! ### The characters -/

/-- Only a star is read as one. -/
theorem patternPiece_ne_star {p : UInt8} (hp : p ≠ 42) : patternPiece p ≠ .star := by
  rw [patternPiece, if_neg hp]
  split <;> exact fun h => by cases h

/-- A character that is not a star accepts what `glob_match` lets pass. -/
theorem patternPiece_accepts {p : UInt8} (hp : p ≠ 42) (b : UInt8) :
    (patternPiece p).Accepts [b] ↔ (p = 63 || p = b) = true := by
  rw [patternPiece, if_neg hp]
  by_cases hany : p = 63
  · rw [if_pos hany]
    exact iff_of_true rfl (by simp [hany])
  · rw [if_neg hany, Piece.accepts_singleton]
    simp [hany]

/-- The empty pattern matches the empty text. -/
theorem globMatches_nil (str : Bytes) : GlobMatches [] str ↔ str = [] := matches_nil

/-- A star matches anything in front of what the rest matches. -/
theorem globMatches_star_cons (pattern str : Bytes) :
    GlobMatches (42 :: pattern) str ↔ ∃ v, v <:+ str ∧ GlobMatches pattern v := matches_star_cons

/-- The two stars at the end of a pattern match whatever is left. -/
theorem globMatches_append_stars (front str : Bytes) :
    GlobMatches (front ++ [42, 42]) str ↔ ∃ u v, str = u ++ v ∧ GlobMatches front u := by
  rw [GlobMatches, patternPieces, List.map_append, matches_append]
  constructor
  · rintro ⟨u, v, hstr, hu, -⟩
    exact ⟨u, v, hstr, hu⟩
  · rintro ⟨u, v, hstr, hu⟩
    exact ⟨u, v, hstr, hu, matches_star_star v⟩

/-- A character that is not a star needs a character of the string. -/
theorem not_globMatches_nil {p : UInt8} (hp : p ≠ 42) (pattern : Bytes) :
    ¬GlobMatches (p :: pattern) [] := fun h =>
  patternPiece_ne_star hp (matches_nil_iff.mp h _ List.mem_cons_self)

/-- Any other byte of a pattern matches one byte. -/
theorem globMatches_cons_cons {p : UInt8} (hp : p ≠ 42) (pattern : Bytes) (b : UInt8)
    (str : Bytes) :
    GlobMatches (p :: pattern) (b :: str) ↔
      (p = 63 || p = b) = true ∧ GlobMatches pattern str := by
  rw [GlobMatches, patternPieces, List.map_cons, matches_cons_cons (patternPiece_ne_star hp),
    patternPiece_accepts hp]
  rfl

/-- A pattern that matches the empty string consists of stars: it is empty, one star, or ends in
two. -/
theorem pattern_of_globMatches_nil {pattern : Bytes} (h : GlobMatches pattern []) :
    pattern = [] ∨ pattern = [42] ∨ ∃ front, pattern = front ++ [42, 42] := by
  have hstars : ∀ p ∈ pattern, p = 42 := by
    intro p hp
    have hstar : patternPiece p = .star := matches_nil_iff.mp h _ (List.mem_map_of_mem hp)
    exact Classical.not_not.mp fun hne => patternPiece_ne_star hne hstar
  rw [List.eq_replicate_of_mem hstars]
  obtain hn | hn | ⟨n, hn⟩ : pattern.length = 0 ∨ pattern.length = 1 ∨
      ∃ n, pattern.length = n + 2 := by
    rcases pattern.length with _ | _ | n
    · exact .inl rfl
    · exact .inr (.inl rfl)
    · exact .inr (.inr ⟨n, rfl⟩)
  · exact .inl (by rw [hn]; rfl)
  · exact .inr (.inl (by rw [hn]; rfl))
  · exact .inr (.inr ⟨List.replicate n 42, by rw [hn, List.replicate_add]; rfl⟩)

/-! ### The cases of `glob_match` -/

/-- `glob_match` at the end of the pattern. -/
theorem globMatch_nil (str : Bytes) : globMatch [] str = str.isEmpty := by
  rw [globMatch.eq_def]

/-- At a star. -/
theorem globMatch_star_cons (pattern str : Bytes) :
    globMatch (42 :: pattern) str = (pattern.isEmpty || globStar (globMatch pattern) str) := by
  rw [globMatch.eq_def]
  rfl

/-- At the end of the text. -/
theorem globMatch_cons_nil {p : UInt8} (hp : p ≠ 42) (pattern : Bytes) :
    globMatch (p :: pattern) [] = false := by
  rw [globMatch.eq_def]
  exact if_neg hp

/-- At a byte of both. -/
theorem globMatch_cons_cons {p : UInt8} (hp : p ≠ 42) (pattern : Bytes) (b : UInt8)
    (str : Bytes) :
    globMatch (p :: pattern) (b :: str) = ((p = 63 || p = b) && globMatch pattern str) := by
  rw [globMatch.eq_def]
  exact if_neg hp

/-! ### The loop behind a star -/

/-- The loop tries the suffixes that are not empty. -/
theorem globStar_eq_true_iff (rest : Bytes → Bool) (str : Bytes) :
    globStar rest str = true ↔ ∃ v, v <:+ str ∧ v ≠ [] ∧ rest v = true := by
  induction str with
  | nil =>
    refine iff_of_false (by simp [globStar]) ?_
    rintro ⟨v, hv, hne, -⟩
    exact hne (List.suffix_nil.mp hv)
  | cons b str ih =>
    rw [globStar, Bool.or_eq_true, ih]
    constructor
    · rintro (h | ⟨v, hv, hne, h⟩)
      · exact ⟨b :: str, List.suffix_rfl, List.cons_ne_nil b str, h⟩
      · exact ⟨v, hv.trans (List.suffix_cons b str), hne, h⟩
    · rintro ⟨v, hv, hne, h⟩
      rcases List.suffix_cons_iff.mp hv with rfl | hv
      · exact .inl h
      · exact .inr ⟨v, hv, hne, h⟩

/-- One character of the string more, and the last star still fits. -/
theorem lastStarFits_cons_cons {p : UInt8} (hp : p ≠ 42) (pattern : Bytes) {b : UInt8}
    {str : Bytes} (hb : (p = 63 || p = b) = true) :
    LastStarFits (p :: pattern) (b :: str) ↔ LastStarFits pattern str := by
  constructor
  · rintro h front rfl
    obtain ⟨u, v, heq, hv, hu⟩ := h (p :: front) rfl
    cases u with
    | nil => exact absurd hu (not_globMatches_nil hp front)
    | cons b' u =>
      obtain ⟨rfl, rfl⟩ := List.cons.inj heq
      exact ⟨u, v, rfl, hv, ((globMatches_cons_cons hp ..).mp hu).2⟩
  · intro h front heq
    cases front with
    | nil => exact absurd (List.cons.inj heq).1 hp
    | cons p' front =>
      obtain ⟨rfl, rfl⟩ := List.cons.inj heq
      obtain ⟨u, v, rfl, hv, hu⟩ := h front rfl
      exact ⟨b :: u, v, rfl, hv, (globMatches_cons_cons hp ..).mpr ⟨hb, hu⟩⟩

/-- A pattern that does not end in two stars asks for nothing at the end. -/
theorem lastStarFits_of_not_stars {pattern : Bytes} (str : Bytes)
    (hstars : ¬∃ front, pattern = front ++ [42, 42]) : LastStarFits pattern str :=
  fun front heq => absurd ⟨front, heq⟩ hstars

/-- One star does not end in two. -/
theorem one_star_not_two : ¬∃ front : Bytes, [42] = front ++ [42, 42] := by
  rintro ⟨front, h⟩
  have hlen : 1 = front.length + 2 := by simpa using congrArg List.length h
  omega

/-- What is found in a suffix is found behind a star. -/
theorem lastStarFits_star_cons {pattern v : Bytes} (w : Bytes) (hv : v ≠ [])
    (h : LastStarFits pattern v) : LastStarFits (42 :: pattern) (w ++ v) := by
  intro front heq
  cases front with
  | nil =>
    exact ⟨[], w ++ v, rfl, List.append_ne_nil_of_right_ne_nil w hv, (globMatches_nil []).mpr rfl⟩
  | cons p front =>
    obtain ⟨rfl, rfl⟩ := List.cons.inj heq
    obtain ⟨u, x, rfl, hx, hu⟩ := h front rfl
    exact ⟨w ++ u, x, (List.append_assoc ..).symm, hx,
      (globMatches_star_cons ..).mpr ⟨u, List.suffix_append w u, hu⟩⟩

/-- Behind a star the rest of the pattern is found in a suffix that is not empty, when the last
star has something left. -/
theorem exists_suffix_of_star {pattern str : Bytes} (hne : pattern ≠ [])
    (hmatch : GlobMatches (42 :: pattern) str) (hfits : LastStarFits (42 :: pattern) str) :
    ∃ v, v <:+ str ∧ v ≠ [] ∧ GlobMatches pattern v ∧ LastStarFits pattern v := by
  by_cases hstars : ∃ front, pattern = front ++ [42, 42]
  · -- the last star leaves a part behind the match of what stands in front of the two
    obtain ⟨front, rfl⟩ := hstars
    obtain ⟨u, x, rfl, hx, hu⟩ := hfits (42 :: front) rfl
    obtain ⟨u', ⟨w, rfl⟩, hu'⟩ := (globMatches_star_cons ..).mp hu
    refine ⟨u' ++ x, ⟨w, (List.append_assoc ..).symm⟩,
      List.append_ne_nil_of_right_ne_nil u' hx,
      (globMatches_append_stars ..).mpr ⟨u', x, rfl, hu'⟩, fun front' heq => ?_⟩
    obtain rfl : front = front' := List.append_cancel_right heq
    exact ⟨u', x, rfl, hx, hu'⟩
  · obtain ⟨v, hv, hmatch'⟩ := (globMatches_star_cons ..).mp hmatch
    by_cases hempty : v = []
    · subst hempty
      rcases pattern_of_globMatches_nil hmatch' with h | rfl | h
      · exact absurd h hne
      · -- two stars in all: the string itself is such a suffix
        obtain ⟨u, x, rfl, hx, -⟩ := hfits [] rfl
        exact ⟨u ++ x, List.suffix_rfl, List.append_ne_nil_of_right_ne_nil u hx,
          matches_star _, lastStarFits_of_not_stars _ hstars⟩
      · exact absurd h hstars
    · exact ⟨v, hv, hempty, hmatch', lastStarFits_of_not_stars v hstars⟩

/-! ### What `glob_match` finds -/

/-- **`glob_match` finds a match that leaves something to the last of two stars at the end.** By
induction on the pattern: a star is its loop, and every other character takes one of the string. -/
theorem globMatch_eq_true_iff (pattern str : Bytes) :
    globMatch pattern str = true ↔ GlobMatches pattern str ∧ LastStarFits pattern str := by
  induction pattern generalizing str with
  | nil =>
    have hfits : LastStarFits [] str := lastStarFits_of_not_stars str (by simp)
    rw [globMatch_nil, List.isEmpty_iff, globMatches_nil, and_iff_left hfits]
  | cons p pattern ih =>
    by_cases hp : p = 42
    · -- a star, which is tried at every suffix but the empty one
      subst hp
      rw [globMatch_star_cons, Bool.or_eq_true, List.isEmpty_iff, globStar_eq_true_iff]
      constructor
      · rintro (rfl | ⟨v, ⟨w, rfl⟩, hv, h⟩)
        · exact ⟨matches_star str, lastStarFits_of_not_stars str one_star_not_two⟩
        · obtain ⟨hmatch, hfits⟩ := (ih v).mp h
          exact ⟨(globMatches_star_cons ..).mpr ⟨v, List.suffix_append w v, hmatch⟩,
            lastStarFits_star_cons w hv hfits⟩
      · rintro ⟨hmatch, hfits⟩
        by_cases hne : pattern = []
        · exact .inl hne
        · obtain ⟨v, hsuffix, hv, h⟩ := exists_suffix_of_star hne hmatch hfits
          exact .inr ⟨v, hsuffix, hv, (ih v).mpr h⟩
    · -- one byte of each
      cases str with
      | nil =>
        rw [globMatch_cons_nil hp]
        exact iff_of_false Bool.false_ne_true fun h => not_globMatches_nil hp pattern h.1
      | cons b str =>
        rw [globMatch_cons_cons hp, Bool.and_eq_true, ih, globMatches_cons_cons hp, and_assoc]
        refine and_congr_right fun hb => and_congr_right fun _ => ?_
        exact (lastStarFits_cons_cons hp pattern hb).symm

/-- The last star does not fit exactly when the stars have only the end of the string. -/
theorem not_lastStarFits_iff {pattern str : Bytes} (hmatch : GlobMatches pattern str) :
    ¬LastStarFits pattern str ↔ NeedsEnd pattern str := by
  constructor
  · intro h
    unfold LastStarFits at h
    push Not at h
    obtain ⟨front, rfl, hnone⟩ := h
    have hend : ∀ u v, str = u ++ v → GlobMatches front u → v = [] := fun u v hstr hu =>
      Classical.not_not.mp fun hv => hnone u v hstr hv hu
    obtain ⟨u, v, rfl, hu⟩ := (globMatches_append_stars ..).mp hmatch
    obtain rfl : v = [] := hend u v rfl hu
    refine ⟨front, rfl, ?_, hend⟩
    rwa [List.append_nil]
  · rintro ⟨front, rfl, -, hend⟩ hfits
    obtain ⟨u, v, hstr, hv, hu⟩ := hfits front rfl
    exact hv (hend u v hstr hu)

/-- What needs the end matches. -/
theorem NeedsEnd.globMatches {pattern str : Bytes} (h : NeedsEnd pattern str) :
    GlobMatches pattern str := by
  obtain ⟨front, rfl, hfront, -⟩ := h
  exact (globMatches_append_stars ..).mpr ⟨str, [], (List.append_nil str).symm, hfront⟩

/-- **`glob_match` decides the reference unless two stars at the end of the pattern have only the
end of the string to match.** -/
theorem globMatch_correct_iff (pattern str : Bytes) :
    (globMatch pattern str = true ↔ GlobMatches pattern str) ↔ ¬NeedsEnd pattern str := by
  rw [globMatch_eq_true_iff, and_iff_left_iff_imp]
  constructor
  · intro h hend
    have hmatch : GlobMatches pattern str := hend.globMatches
    exact (not_lastStarFits_iff hmatch).mpr hend (h hmatch)
  · intro h hmatch
    exact Classical.not_not.mp fun hfits => h ((not_lastStarFits_iff hmatch).mp hfits)

/-- The string `a` matches `a**`, and `glob_match` says that it does not. -/
theorem globMatch_misses_end :
    ¬∀ pattern str : Bytes, globMatch pattern str = true ↔ GlobMatches pattern str := by
  intro h
  have hmatch : GlobMatches (ascii "a**") (ascii "a") :=
    (globMatches_append_stars (ascii "a") (ascii "a")).mpr ⟨ascii "a", [], rfl,
      (globMatches_cons_cons (by decide) ..).mpr ⟨rfl, (globMatches_nil []).mpr rfl⟩⟩
  exact absurd ((h (ascii "a**") (ascii "a")).mpr hmatch) (by decide)

/-! ### `KEYS` -/

variable {libc : Libc} {now : Int64} {s : Session}

/-- The keys that the callback collects. -/
theorem dictEach_keysCb (d : Dict Obj) (pattern : Bytes) :
    dictEach d (keysCb pattern) [] =
      (d.visits.map Prod.fst).filter fun key => globMatch pattern (cstr key) := by
  have hcollect : ∀ (es : List (DictEntry Obj)) (ks : List Bytes),
      es.foldl (fun ks e => (keysCb pattern ks e.key e.val).1) ks =
        ks ++ (es.map (·.key)).filter fun key => globMatch pattern (cstr key) := by
    intro es
    induction es with
    | nil =>
      intro ks
      exact (List.append_nil ks).symm
    | cons e es ih =>
      intro ks
      rw [List.foldl_cons, ih, List.map_cons, List.filter_cons, keysCb]
      split
      · rw [List.append_assoc, List.singleton_append]
      · rfl
  rw [dictEach_of_always d fun _ _ _ => rfl, hcollect, List.nil_append, Dict.visits, List.map_map]
  rfl

/-- `KEYS` replies the keys, expired ones too, that `glob_match` lets pass. -/
theorem replied_keys (libc : Libc) (now : Int64) (s : Session) (pattern : Bytes) :
    Replied libc now s [ascii "KEYS", pattern] (.array
      ((s.dict.visits.map Prod.fst).filter fun key => globMatch (cstr pattern) (cstr key))) := by
  refine replied_of_exec (c := .KEYS) (t := s) (by decide) ?_
  rw [← dictEach_keysCb]
  exact exec_bulks _ s

/-- **`KEYS` replies the stored keys that match the pattern**, each once, but for those that two
stars at the end of the pattern match with their end only. A key that has expired is still there
until somebody removes it. -/
theorem keys_of_pattern (hs : Reachable libc s.dict) (pattern : Bytes) :
    ∃ keys : List Bytes, Replied libc now s [ascii "KEYS", pattern] (.array keys) ∧ keys.Nodup ∧
      ∀ key, key ∈ keys ↔ (dictGet s.dict key).isSome ∧
        GlobMatches (cstr pattern) (cstr key) ∧ ¬NeedsEnd (cstr pattern) (cstr key) := by
  obtain ⟨hnodup, hvisits⟩ := DictRel.visits_spec ⟨hs.wf, rfl⟩
  refine ⟨_, replied_keys libc now s pattern, hnodup.filter _, fun key => ?_⟩
  have hfound : globMatch (cstr pattern) (cstr key) = true ↔
      GlobMatches (cstr pattern) (cstr key) ∧ ¬NeedsEnd (cstr pattern) (cstr key) := by
    rw [globMatch_eq_true_iff]
    exact and_congr_right fun hmatch => (not_iff_comm.mp (not_lastStarFits_iff hmatch)).symm
  have hstored : key ∈ s.dict.visits.map Prod.fst ↔ (dictGet s.dict key).isSome := by
    rw [List.mem_map, Option.isSome_iff_exists]
    constructor
    · rintro ⟨⟨_, val⟩, hmem, rfl⟩
      exact ⟨val, (hvisits _ val).mp hmem⟩
    · rintro ⟨val, hget⟩
      exact ⟨(key, val), (hvisits key val).mpr hget, rfl⟩
  rw [List.mem_filter, hstored, hfound]

/-- Four keys are set, and three of them looked for: `*` needs a byte to stop in front of, so
`job` does not find `j?b*`, though it matches. -/
theorem keys_of_pattern_four :
    let s := afterCommands Libc.plain 0 ([ascii "job1", ascii "jab23", ascii "job",
      ascii "note"].map fun key => [ascii "SET", key, ascii "x"]) Session.fresh
    Reachable Libc.plain s.dict ∧ ascii "job1" ∈ s.dict.visits.map Prod.fst ∧
      ∃ keys : List Bytes, Replied Libc.plain 1000 s [ascii "KEYS", ascii "j?b*"] (.array keys) ∧
        keys.Nodup ∧ ∀ key, key ∈ keys ↔ (dictGet s.dict key).isSome ∧
          GlobMatches (cstr (ascii "j?b*")) (cstr key) ∧
          ¬NeedsEnd (cstr (ascii "j?b*")) (cstr key) := by
  intro s
  have hs : Reachable Libc.plain s.dict := reachable_fresh.afterCommands 0 _
  exact ⟨hs, by decide +kernel, keys_of_pattern hs (ascii "j?b*")⟩

end Minired
