import Mathlib

/-!
# Files with names, contents and offsets

A disk is a directory that links names to numbers, and a content for each number. A file that
is open is known by its number, so it can be written after its name is gone, and what two
openers of one name write goes into one content, each at an offset of its own.

* `Disk.openTrunc` — open for writing: the content of the name is emptied, or a new one made;
* `Disk.write` — write at an offset; a gap in front of it is filled with zeros;
* `Disk.rename` — one step: the new name is linked to what the old one was, if there was any;
* `read_openTrunc`, `read_setData`, `read_rename` — what the names show after each.

No content has two names, and numbers are not used twice.
-/

namespace Posix

variable {N B : Type*}

/-- The directory, the contents, and the first number that has not been used. -/
structure Disk (N B : Type*) where
  dir : N → Option ℕ
  data : ℕ → List B
  next : ℕ
  fresh : ∀ n i, dir n = some i → i < next
  inj : ∀ n m i, dir n = some i → dir m = some i → n = m

namespace Disk

/-- What a name shows. -/
def read (k : Disk N B) (n : N) : Option (List B) := (k.dir n).map k.data

/-- Other contents under the same names. -/
def setData (k : Disk N B) (i : ℕ) (bs : List B) : Disk N B :=
  { k with data := Function.update k.data i bs }

/-- Writing data leaves the names alone. -/
@[simp] theorem setData_dir (k : Disk N B) (i : ℕ) (bs : List B) :
    (k.setData i bs).dir = k.dir := rfl

/-- It writes that file. -/
@[simp] theorem setData_data (k : Disk N B) (i : ℕ) (bs : List B) :
    (k.setData i bs).data = Function.update k.data i bs := rfl

variable [DecidableEq N]

/-- A new, empty content for the name. -/
def create (k : Disk N B) (n : N) : Disk N B where
  dir := Function.update k.dir n (some k.next)
  data := Function.update k.data k.next []
  next := k.next + 1
  fresh m i h := by
    by_cases hm : m = n
    · subst hm
      rw [Function.update_self] at h
      obtain rfl := Option.some.inj h
      exact Nat.lt_succ_self _
    · rw [Function.update_of_ne hm] at h
      exact (k.fresh m i h).trans (Nat.lt_succ_self _)
  inj m m' i h h' := by
    by_cases hm : m = n
    · by_cases hm' : m' = n
      · rw [hm, hm']
      · subst hm
        rw [Function.update_self] at h
        rw [Function.update_of_ne hm', ← h] at h'
        exact absurd (k.fresh m' _ h') (lt_irrefl _)
    · by_cases hm' : m' = n
      · subst hm'
        rw [Function.update_self] at h'
        rw [Function.update_of_ne hm, ← h'] at h
        exact absurd (k.fresh m _ h) (lt_irrefl _)
      · rw [Function.update_of_ne hm] at h
        rw [Function.update_of_ne hm'] at h'
        exact k.inj m m' i h h'

/-- Open for writing from the beginning: the disk, and the number of the open content. -/
def openTrunc (k : Disk N B) (n : N) : Disk N B × ℕ :=
  match k.dir n with
  | some i => (k.setData i [], i)
  | none => (k.create n, k.next)

/-- The content with `bs` at offset `off`. -/
def overwrite [Zero B] (content : List B) (off : ℕ) (bs : List B) : List B :=
  match bs with
  | [] => content
  | bs => content.takeD off 0 ++ bs ++ content.drop (off + bs.length)

/-- Write into an open content. -/
def write [Zero B] (k : Disk N B) (i off : ℕ) (bs : List B) : Disk N B :=
  k.setData i (overwrite (k.data i) off bs)

/-- Link `b` to what `a` was linked to, and `a` to nothing. -/
def move (k : Disk N B) (a b : N) : Disk N B where
  dir n := if n = b then k.dir a else if n = a then none else k.dir n
  data := k.data
  next := k.next
  fresh n i h := by
    split at h
    · exact k.fresh a i h
    · split at h
      · cases h
      · exact k.fresh n i h
  inj n m i hn hm := by
    split at hn <;> split at hm
    · rename_i hnb hmb
      rw [hnb, hmb]
    · split at hm
      · cases hm
      · rename_i hma
        exact absurd (k.inj m a i hm hn) hma
    · split at hn
      · cases hn
      · rename_i hna
        exact absurd (k.inj n a i hn hm) hna
    · split at hn
      · cases hn
      · split at hm
        · cases hm
        · exact k.inj n m i hn hm

/-- `rename` fails when there is nothing under the old name. -/
def rename (k : Disk N B) (a b : N) : Option (Disk N B) :=
  match k.dir a with
  | some _ => some (k.move a b)
  | none => none

/-- A new name refers to a new file. -/
@[simp] theorem create_dir (k : Disk N B) (n : N) :
    (k.create n).dir = Function.update k.dir n (some k.next) := rfl

/-- Which is empty. -/
@[simp] theorem create_data (k : Disk N B) (n : N) :
    (k.create n).data = Function.update k.data k.next [] := rfl

/-- The new name refers to the file, and the old one to none. -/
@[simp] theorem move_dir (k : Disk N B) (a b n : N) :
    (k.move a b).dir n = if n = b then k.dir a else if n = a then none else k.dir n := rfl

/-- The data stays where it is. -/
@[simp] theorem move_data (k : Disk N B) (a b : N) : (k.move a b).data = k.data := rfl

/-! ### What the names show -/

/-- A write at the end appends. -/
theorem overwrite_length [Zero B] (content bs : List B) :
    overwrite content content.length bs = content ++ bs := by
  cases bs with
  | nil => exact (List.append_nil content).symm
  | cons b bs =>
    rw [overwrite, List.drop_of_length_le (Nat.le_add_right _ _), List.append_nil]
    · rw [List.takeD_eq_take 0 le_rfl, List.take_length]
    · exact fun h => List.cons_ne_nil b bs h

/-- What was written is read under the name. -/
theorem read_setData {k : Disk N B} {n : N} {i : ℕ} (hn : k.dir n = some i) (bs : List B) :
    (k.setData i bs).read = Function.update k.read n (some bs) := by
  funext m
  by_cases hm : m = n
  · subst hm
    rw [Function.update_self, read, setData_dir, hn, Option.map_some, setData_data,
      Function.update_self]
  · rw [Function.update_of_ne hm, read, setData_dir, setData_data, read]
    cases hdir : k.dir m with
    | none => rfl
    | some j =>
      -- no other name has this content
      have hne : j ≠ i := by
        rintro rfl
        exact hm (k.inj m n j hdir hn)
      rw [Option.map_some, Option.map_some, Function.update_of_ne hne]

/-- Opening links the name to the open content and empties it. -/
theorem openTrunc_eq (k : Disk N B) (n : N) :
    (k.openTrunc n).1.dir = Function.update k.dir n (some (k.openTrunc n).2) ∧
      (k.openTrunc n).1.data = Function.update k.data (k.openTrunc n).2 [] := by
  rw [openTrunc]
  cases hn : k.dir n with
  | some i => exact ⟨(Function.update_eq_self_iff.mpr hn.symm).symm, rfl⟩
  | none => exact ⟨rfl, rfl⟩

/-- A file that was opened for writing is empty. -/
theorem read_openTrunc (k : Disk N B) (n : N) :
    (k.openTrunc n).1.read = Function.update k.read n (some []) := by
  obtain ⟨hdir, hdata⟩ := k.openTrunc_eq n
  funext m
  by_cases hm : m = n
  · subst hm
    rw [read, hdir, hdata, Function.update_self, Function.update_self, Option.map_some,
      Function.update_self]
  · have hm' : (k.openTrunc n).1.dir m = k.dir m := by rw [hdir, Function.update_of_ne hm]
    rw [Function.update_of_ne hm, read, hm', hdata, read]
    cases hj : k.dir m with
    | none => rfl
    | some j =>
      -- no other name has the open content
      have hne : j ≠ (k.openTrunc n).2 := by
        rintro rfl
        refine hm ((k.openTrunc n).1.inj m n _ (hm'.trans hj) ?_)
        rw [hdir, Function.update_self]
      rw [Option.map_some, Option.map_some, Function.update_of_ne hne]

/-- A rename puts the content under the other name. -/
theorem read_rename {k k' : Disk N B} {a b : N} (h : k.rename a b = some k') (hab : a ≠ b) :
    k'.read = Function.update (Function.update k.read b (k.read a)) a none := by
  rw [rename] at h
  cases ha : k.dir a with
  | none =>
    rw [ha] at h
    cases h
  | some i =>
    rw [ha] at h
    obtain rfl := Option.some.inj h
    funext m
    rw [read, move_dir, move_data]
    by_cases hma : m = a
    · subst hma
      rw [Function.update_self, if_neg hab, if_pos rfl, Option.map_none]
    · rw [Function.update_of_ne hma]
      by_cases hmb : m = b
      · subst hmb
        rw [Function.update_self, if_pos rfl, read]
      · rw [Function.update_of_ne hmb, if_neg hmb, if_neg hma, read]

end Disk

end Posix
