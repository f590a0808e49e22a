import Minired.LiveKey
import Minired.Sds

/-!
# A key that is appended to

`APPEND` makes the string of a missing key with `sds_new` and lengthens that of any other with
`sds_append`. Here both sides of it are followed through a whole sequence of `APPEND`s: what the
commands reply, and the `sds` that the handler's calls leave behind (`appendSds`).

`StringAt` says what holds between two commands: `STRLEN` and `GET` reply the length and the text
at any time, and the calls have left a string that holds this text, as `sds_dup` of it does.
`AppendsTo` says that each `APPEND` of a sequence replies the length so far and leaves the key so.
The key carries no deadline all the way (`newObj`), so the times of the commands do not matter.
**`append_concatenates`** proves it for a missing key and for one that has just been set.
-/

namespace Minired

open Framing Relational

variable {libc : Libc} {now : Int64} {key text piece : Bytes} {s : Session} {alloc : Allocator}

/-- The call with which `cmd_append` makes the string: `sds_new` when there is none. -/
def appendSds (alloc : Allocator) :
    Option (Except SdsError Sds) → Bytes → Except SdsError Sds
  | none, piece => sdsNew alloc piece
  | some str, piece => do sdsAppend alloc (← str) piece

variable (libc alloc) in
/-- The key has the text, for `STRLEN` and `GET` at any time, and so have its string and a copy. -/
def StringAt (s : Session) (key : Bytes) (str : Except SdsError Sds) (text : Bytes) : Prop :=
  (∀ later, Replied libc later s [ascii "STRLEN", key] (.integer text.length) ∧
    Replied libc later s [ascii "GET", key] (.bulk text)) ∧
  Yields alloc str text ∧ Yields alloc (str >>= sdsDup alloc) text

variable (libc alloc) in
/-- Each `APPEND` of the sequence, at the time it comes with, replies the length of the pieces so
far, and behind it the key has these pieces, one after the other. -/
def AppendsTo (key : Bytes) :
    Session → Option (Except SdsError Sds) → Bytes → List (Int64 × Bytes) → Prop
  | _, _, _, [] => True
  | s, str, text, (now, piece) :: pieces =>
    let t := (exec (dispatchCommand libc now [ascii "APPEND", key, piece]) s).2
    Replied libc now s [ascii "APPEND", key, piece] (.integer (text ++ piece).length) ∧
      StringAt libc alloc t key (appendSds alloc str piece) (text ++ piece) ∧
      AppendsTo key t (some (appendSds alloc str piece)) (text ++ piece) pieces

/-! ### The commands -/

/-- `STRLEN` and `GET` of a string. -/
theorem replied_reads (hs : s.dict.WF) (hget : dictGet s.dict key = some (newObj (.str text)))
    (later : Int64) :
    Replied libc later s [ascii "STRLEN", key] (.integer text.length) ∧
      Replied libc later s [ascii "GET", key] (.bulk text) := by
  constructor
  · exact replied_live (c := .STRLEN) (by decide) hs (live_newObj hget) rfl rfl
  · exact replied_live (c := .GET) (by decide) hs (live_newObj hget) rfl rfl

/-- `SET` stores its argument, whatever there was. -/
theorem exec_set (libc : Libc) (hs : s.dict.WF) (now : Int64) (key text : Bytes) :
    ∃ t : Session, exec (dispatchCommand libc now [ascii "SET", key, text]) s = (.ok (), t) ∧
      t.dict.WF ∧ dictGet t.dict key = some (newObj (.str text)) := by
  rw [dispatchCommand_of_find (c := .SET) (by decide)]
  exact ⟨_, rfl, wf_dictSet hs key _, dictGet_dictSet_self hs key _⟩

/-- `APPEND` replies the length so far, and stores the text so far. -/
theorem exec_append (hs : s.dict.WF)
    (hkey : live now s.dict key = none ∧ text = [] ∨
      dictGet s.dict key = some (newObj (.str text))) (piece : Bytes) :
    ∃ t : Session, exec (dispatchCommand libc now [ascii "APPEND", key, piece]) s =
        (.ok (), { t with writeBuf := s.writeBuf ++
          (RespValue.integer (text ++ piece).length).encode }) ∧
      t.dict.WF ∧ dictGet t.dict key = some (newObj (.str (text ++ piece))) := by
  rw [dispatchCommand_of_find (c := .APPEND) (by decide)]
  show ∃ t, exec (withKey now key _ _) s = _ ∧ _
  rcases hkey with ⟨hlive, rfl⟩ | hget
  · have hcheck : (checkExpiry now s.dict key).1.WF := wf_checkExpiry hs now key
    rw [exec_withKey_missing hs hlive]
    exact ⟨_, rfl, wf_dictSet hcheck key _, dictGet_dictSet_self hcheck key _⟩
  · rw [exec_withKey_live hs (live_newObj hget)]
    refine ⟨_, rfl, wf_dictModify hs key _, ?_⟩
    show dictGet (dictModify s.dict key _) key = _
    rw [dictGet_dictModify_self hs, hget]
    rfl

/-! ### Whole sequences -/

/-- A string that holds the text can be copied. -/
theorem Yields.dup {str : Except SdsError Sds} (hstr : Yields alloc str text) :
    Yields alloc (str >>= sdsDup alloc) text :=
  hstr.bind le_rfl fun _ hs => yields_sdsDup hs

/-- **One `APPEND` after the other.** -/
theorem appendsTo (pieces : List (Int64 × Bytes)) (hsize : ∀ p ∈ pieces, p.2.length < 2 ^ 63)
    {s : Session} (hs : s.dict.WF) {str : Option (Except SdsError Sds)} {text : Bytes}
    (hkey : (∀ p ∈ pieces.head?, live p.1 s.dict key = none) ∧ str = none ∧ text = [] ∨
      dictGet s.dict key = some (newObj (.str text)) ∧ ∃ r, str = some r ∧ Yields alloc r text) :
    AppendsTo libc alloc key s str text pieces := by
  induction pieces generalizing s str text with
  | nil => trivial
  | cons p pieces ih =>
    obtain ⟨now, piece⟩ := p
    have hpiece : piece.length < 2 ^ 63 := hsize (now, piece) List.mem_cons_self
    -- the string on the side
    have hstr : Yields alloc (appendSds alloc str piece) (text ++ piece) := by
      rcases hkey with ⟨-, rfl, rfl⟩ | ⟨-, r, rfl, hr⟩
      · exact yields_sdsNew hpiece
      · have hlen : text.length ≤ (text ++ piece).length := by
          rw [List.length_append]
          exact Nat.le_add_right ..
        exact hr.bind hlen (f := fun s => sdsAppend alloc s piece) fun _ hs =>
          yields_sdsAppend hs hpiece
    -- the command
    have hfound : live now s.dict key = none ∧ text = [] ∨
        dictGet s.dict key = some (newObj (.str text)) :=
      hkey.imp (fun h => ⟨h.1 (now, piece) rfl, h.2.2⟩) And.left
    obtain ⟨t, hrun, hwf, hget⟩ := exec_append hs hfound piece
    have hafter : (exec (dispatchCommand libc now [ascii "APPEND", key, piece]) s).2.dict =
        t.dict := by rw [hrun]
    unfold AppendsTo
    dsimp only
    refine ⟨?_, ⟨?_, hstr, hstr.dup⟩, ?_⟩
    · rw [Replied, hrun]
      exact ⟨rfl, rfl⟩
    · exact replied_reads (hafter ▸ hwf) (hafter ▸ hget)
    · exact ih (fun p hp => hsize p (List.mem_cons_of_mem _ hp)) (hafter ▸ hwf)
        (.inr ⟨hafter ▸ hget, _, rfl, hstr⟩)

/-- **A missing key, or one that has just been set, holds the concatenation of what is appended
to it**, in the replies and in its string. -/
theorem append_concatenates {s : Session} (hs : Reachable libc s.dict) (alloc : Allocator)
    (key : Bytes) {pieces : List (Int64 × Bytes)} (hsize : ∀ p ∈ pieces, p.2.length < 2 ^ 63) :
    ((∀ p ∈ pieces.head?, live p.1 s.dict key = none) →
      AppendsTo libc alloc key s none [] pieces) ∧
    ∀ (now : Int64) (text : Bytes), text.length < 2 ^ 63 →
      let t := (exec (dispatchCommand libc now [ascii "SET", key, text]) s).2
      StringAt libc alloc t key (sdsNew alloc text) text ∧
        AppendsTo libc alloc key t (some (sdsNew alloc text)) text pieces := by
  have hwf := hs.wf
  refine ⟨fun hmissing => appendsTo pieces hsize hwf (.inl ⟨hmissing, rfl, rfl⟩), ?_⟩
  intro now text htext
  obtain ⟨t, hrun, hset, hget⟩ := exec_set libc hwf now key text
  have hstr : Yields alloc (sdsNew alloc text) text := yields_sdsNew htext
  dsimp only
  rw [hrun]
  exact ⟨⟨replied_reads hset hget, hstr, hstr.dup⟩,
    appendsTo pieces hsize hset (.inr ⟨hget, _, rfl, hstr⟩)⟩

/-- An allocator that grants blocks of less than a megabyte. -/
def megabyteAllocator : Allocator where
  grants size := decide (size < 2 ^ 20)
  lt_of_grants _ hsize := (of_decide_eq_true hsize).trans (by decide)

/-- A NUL and nothing, appended to a missing key and to `x`. -/
theorem append_concatenates_fresh :
    AppendsTo Libc.plain megabyteAllocator [107] Session.fresh none [] [(0, [0]), (1, [])] ∧
    AppendsTo Libc.plain megabyteAllocator [107]
      (exec (dispatchCommand Libc.plain 0 [ascii "SET", [107], ascii "x"]) Session.fresh).2
      (some (sdsNew megabyteAllocator (ascii "x"))) (ascii "x") [(0, [0]), (1, [])] := by
  have hsize : ∀ p ∈ ([(0, [0]), (1, [])] : List (Int64 × Bytes)), p.2.length < 2 ^ 63 := by decide
  have hfresh : Reachable Libc.plain Session.fresh.dict := reachable_fresh
  obtain ⟨hmissing, hset⟩ := append_concatenates hfresh megabyteAllocator [107] hsize
  exact ⟨hmissing fun _ _ => live_fresh _ _, (hset 0 (ascii "x") (by decide)).2⟩

end Minired
