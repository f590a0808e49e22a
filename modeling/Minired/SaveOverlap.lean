import Minired.RdbCodec
import Minired.Lib.Posix
import Minired.Lib.Transducer

/-!
# Overlapping snapshots

A `BGSAVE` starts a child that runs `rdb_save` on its own copy of the database, and nothing
keeps another `BGSAVE`, or a `SAVE`, from starting before the child has finished. Two runs
then use one temporary file.

`Saver` is how far a run has come, and a step of a run opens the temporary file, writes any
number of the bytes that are left, closes or renames. `alone_eq_rdbSave` ties a single run to
`rdb_save`. Of two runs whose steps interleave, one may empty the file that the other one is
writing, and what the other one then writes lies at its own offset.

`Sound` is what holds as long as no run opens the file while the other one has bytes left to
write: the contents that the two names show are whole snapshots or are becoming ones. At the
end the file is the snapshot of one of the two (`overlapping_saves`).
-/

namespace Minired

open Posix Transducer

/-- A run of `rdb_save`: not begun, with the open file, the offset in it and the bytes that
are left, with the file closed, or returned. -/
inductive Saver
  | start
  | writing (inode off : ℕ) (rest : Bytes)
  | closed
  | done (ok : Bool)
  deriving DecidableEq

/-- The disk and the two runs. -/
structure Saving where
  disk : Disk Bytes UInt8
  saver : Bool → Saver

/-- Run `b` has made a step. -/
def Saving.set (s : Saving) (b : Bool) (disk : Disk Bytes UInt8) (v : Saver) : Saving :=
  ⟨disk, Function.update s.saver b v⟩

/-- The disk that was set. -/
@[simp] theorem Saving.set_disk (s : Saving) (b : Bool) (disk : Disk Bytes UInt8) (v : Saver) :
    (s.set b disk v).disk = disk := rfl

/-- The saver that was set. -/
@[simp] theorem Saving.set_saver_self (s : Saving) (b : Bool) (disk : Disk Bytes UInt8)
    (v : Saver) : (s.set b disk v).saver b = v := Function.update_self ..

/-- The other saver is as it was. -/
@[simp] theorem Saving.set_saver_not (s : Saving) (b : Bool) (disk : Disk Bytes UInt8)
    (v : Saver) : (s.set b disk v).saver (!b) = s.saver (!b) :=
  Function.update_of_ne (Bool.not_ne_self b) ..

/-- After a step of `b`, a run is `b` where the step led, or the other one, as it was. -/
theorem Saving.set_saver_inv {s : Saving} {b c : Bool} {disk : Disk Bytes UInt8} {v w : Saver}
    (h : (s.set b disk v).saver c = w) : c = b ∧ v = w ∨ c = (!b) ∧ s.saver (!b) = w := by
  rcases Bool.eq_or_eq_not c b with rfl | rfl
  · rw [Saving.set_saver_self] at h
    exact Or.inl ⟨rfl, h⟩
  · rw [Saving.set_saver_not] at h
    exact Or.inr ⟨rfl, h⟩

-- the path of both runs, and the snapshot of each
variable (path : Bytes) (snap : Bool → Bytes)

/-- The next step of run `b`; when it is a write, `n + 1` bytes are written, or what is left. -/
def saveStep (s : Saving) (i : Bool × ℕ) : Saving × Option (Bool × Bool) :=
  let (b, n) := i
  match s.saver b with
  | .start =>
    let (disk, inode) := s.disk.openTrunc (tmpPath path)
    (s.set b disk (.writing inode 0 (snap b)), none)
  | .writing inode off (c :: rest) =>
    let chunk := (c :: rest).take (n + 1)
    (s.set b (s.disk.write inode off chunk)
      (.writing inode (off + chunk.length) (rest.drop n)), none)
  | .writing _ _ [] => (s.set b s.disk .closed, none)
  | .closed =>
    match s.disk.rename (tmpPath path) path with
    | some disk => (s.set b disk (.done true), some (b, true))
    | none => (s.set b s.disk (.done false), some (b, false))
  | .done _ => (s, none)

/-- The run has bytes left to write. -/
def Saver.Busy : Saver → Prop
  | .writing _ _ rest => rest ≠ []
  | _ => False

/-- Whether a saver is busy can be computed. -/
instance (v : Saver) : Decidable v.Busy :=
  match v with
  | .start => inferInstanceAs (Decidable False)
  | .writing _ _ rest => inferInstanceAs (Decidable (rest ≠ []))
  | .closed => inferInstanceAs (Decidable False)
  | .done _ => inferInstanceAs (Decidable False)

/-- A run opens the temporary file only when the other one has no bytes left to write. -/
def OpensAlone (s : Saving) (i : Bool × ℕ) : Prop :=
  s.saver i.1 = .start → ¬(s.saver !i.1).Busy

/-- So can whether it opens the file alone. -/
instance (s : Saving) (i : Bool × ℕ) : Decidable (OpensAlone s i) :=
  inferInstanceAs (Decidable (_ → _))

/-! ### What a step does -/

variable {path snap}

/-- The ways in which a step of run `b` leads from `s` to another state. -/
inductive Steps (path : Bytes) (snap : Bool → Bytes) (s : Saving) (b : Bool) : Saving → Prop
  | opens (h : s.saver b = .start) : Steps path snap s b
      (s.set b (s.disk.openTrunc (tmpPath path)).1
        (.writing (s.disk.openTrunc (tmpPath path)).2 0 (snap b)))
  | writes {inode off : ℕ} {chunk rest : Bytes} (hne : chunk ≠ [])
      (h : s.saver b = .writing inode off (chunk ++ rest)) : Steps path snap s b
      (s.set b (s.disk.write inode off chunk) (.writing inode (off + chunk.length) rest))
  | closes {inode off : ℕ} (h : s.saver b = .writing inode off []) :
      Steps path snap s b (s.set b s.disk .closed)
  | renames {inode : ℕ} (h : s.saver b = .closed) (hdir : s.disk.dir (tmpPath path) = some inode) :
      Steps path snap s b (s.set b (s.disk.move (tmpPath path) path) (.done true))
  | fails (h : s.saver b = .closed) (hdir : s.disk.dir (tmpPath path) = none) :
      Steps path snap s b (s.set b s.disk (.done false))
  | idles {ok : Bool} (h : s.saver b = .done ok) : Steps path snap s b s

/-- A step of the program is one of the relation. -/
theorem saveStep_steps (s : Saving) (i : Bool × ℕ) :
    Steps path snap s i.1 (saveStep path snap s i).1 := by
  obtain ⟨b, n⟩ := i
  rw [saveStep]
  cases h : s.saver b with
  | start => exact .opens h
  | writing inode off rest =>
    cases rest with
    | nil => exact .closes h
    | cons c rest =>
      -- the step writes as much of the rest as `fwrite` took, one byte at least
      have hsplit : c :: rest = (c :: rest).take (n + 1) ++ rest.drop n :=
        (List.take_append_drop (n + 1) (c :: rest)).symm
      refine .writes ?_ ?_
      · exact fun hnil => List.cons_ne_nil _ _ hnil
      · rw [h, ← hsplit]
  | closed =>
    cases hdir : s.disk.dir (tmpPath path) with
    | some inode =>
      simp only [Disk.rename, hdir]
      exact .renames h hdir
    | none =>
      simp only [Disk.rename, hdir]
      exact .fails h hdir
  | done ok => exact .idles h

/-! ### What holds while the runs do not meet -/

/-- The content is the snapshot of a run, or a run has bytes left to write into it. -/
def Whole (snap : Bool → Bytes) (s : Saving) (i : ℕ) : Prop :=
  (∃ b, s.disk.data i = snap b) ∨ ∃ b off rest, s.saver b = .writing i off rest ∧ rest ≠ []

/-- The invariant. -/
structure Sound (path : Bytes) (snap : Bool → Bytes) (s : Saving) : Prop where
  /-- What a run has written and what it has left make up its snapshot. -/
  busy : ∀ b i off rest, s.saver b = .writing i off rest → rest ≠ [] →
    s.disk.data i ++ rest = snap b ∧ (s.disk.data i).length = off
  /-- One run at most has bytes left. -/
  alone : ∀ b, (s.saver b).Busy → ¬(s.saver !b).Busy
  /-- From the first step on the temporary file is whole, or there is none and the file is. -/
  tmp : (∃ b, s.saver b ≠ .start) → ∀ i, s.disk.dir (tmpPath path) = some i → Whole snap s i
  gone : (∃ b, s.saver b ≠ .start) → s.disk.dir (tmpPath path) = none →
    ∃ i, s.disk.dir path = some i ∧ Whole snap s i
  /-- When a run has returned, the file is whole. -/
  done : (∃ b ok, s.saver b = .done ok) → ∃ i, s.disk.dir path = some i ∧ Whole snap s i

/-- When one of the two runs has no bytes left, at most one has. -/
theorem one_busy {s : Saving} {b : Bool} (h : ¬(s.saver b).Busy) (c : Bool)
    (hc : (s.saver c).Busy) : ¬(s.saver !c).Busy := by
  rcases Bool.eq_or_eq_not c b with rfl | rfl
  · exact absurd hc h
  · rw [Bool.not_not]
    exact h

/-- A content that a step of `b` leaves alone stays whole, when `b` has no bytes left. -/
theorem Whole.stays {s s' : Saving} {b : Bool} {i : ℕ} (hwhole : Whole snap s i)
    (hdata : s'.disk.data i = s.disk.data i) (hother : s'.saver (!b) = s.saver (!b))
    (hidle : ¬(s.saver b).Busy) : Whole snap s' i := by
  rcases hwhole with ⟨c, hc⟩ | ⟨c, off, rest, hc, hrest⟩
  · exact Or.inl ⟨c, hdata.trans hc⟩
  · rcases Bool.eq_or_eq_not c b with rfl | rfl
    · -- `b` is not the run that stands behind a content
      rw [hc] at hidle
      exact absurd hrest hidle
    · exact Or.inr ⟨!b, off, rest, hother.trans hc, hrest⟩

/-- Neither run has begun. -/
def Saving.fresh (disk : Disk Bytes UInt8) : Saving := ⟨disk, fun _ => .start⟩

/-- It holds before anyone saves. -/
theorem Sound.fresh (disk : Disk Bytes UInt8) : Sound path snap (.fresh disk) where
  busy _ _ _ _ h := by cases h
  alone _ h := h.elim
  tmp h := (h.choose_spec rfl).elim
  gone h := (h.choose_spec rfl).elim
  done h := by
    obtain ⟨b, ok, hdone⟩ := h
    cases hdone

section Step

variable {s : Saving} (hs : Sound path snap s) {b : Bool}

include hs

/-- It is kept when the file is opened while the other saver is not busy. -/
theorem Sound.opens (h : s.saver b = .start) (hclear : ¬(s.saver !b).Busy) :
    Sound path snap (s.set b (s.disk.openTrunc (tmpPath path)).1
      (.writing (s.disk.openTrunc (tmpPath path)).2 0 (snap b))) := by
  obtain ⟨hdir, hdata⟩ := s.disk.openTrunc_eq (tmpPath path)
  obtain ⟨⟨disk, j⟩, hopen⟩ : ∃ p, p = s.disk.openTrunc (tmpPath path) := ⟨_, rfl⟩
  rw [← hopen] at hdir hdata ⊢
  dsimp only at hdir hdata ⊢
  have htmp : disk.dir (tmpPath path) = some j := by rw [hdir, Function.update_self]
  have hpath : disk.dir path = s.disk.dir path := by
    rw [hdir, Function.update_of_ne (tmpPath_ne path).symm]
  obtain ⟨s', hs'⟩ : ∃ s', s' = s.set b disk (.writing j 0 (snap b)) := ⟨_, rfl⟩
  have hself : s'.saver b = .writing j 0 (snap b) := by rw [hs', Saving.set_saver_self]
  have hother : s'.saver (!b) = s.saver (!b) := by rw [hs', Saving.set_saver_not]
  have hdisk : s'.disk = disk := by rw [hs', Saving.set_disk]
  -- the content that was opened is empty, and `b` will fill it
  have hnew : Whole snap s' j := by
    by_cases hnil : snap b = []
    · exact Or.inl ⟨b, by rw [hdisk, hdata, Function.update_self, hnil]⟩
    · exact Or.inr ⟨b, 0, snap b, hself, hnil⟩
  -- any other whole content is whole by itself, as no run was writing
  have hold : (∃ i, s.disk.dir path = some i ∧ Whole snap s i) →
      ∃ i, s'.disk.dir path = some i ∧ Whole snap s' i := by
    rintro ⟨i, hi, hwhole⟩
    rw [hdisk, hpath]
    refine ⟨i, hi, ?_⟩
    have hne : i ≠ j := by
      -- the two names never show one content
      rintro rfl
      exact tmpPath_ne path (disk.inj _ _ _ htmp (hpath.trans hi))
    refine hwhole.stays ?_ hother (by rw [h]; exact id)
    rw [hdisk, hdata, Function.update_of_ne hne]
  rw [← hs']
  constructor
  case busy =>
    intro c i off rest hc hrest
    rw [hs'] at hc
    rcases Saving.set_saver_inv hc with ⟨rfl, hv⟩ | ⟨rfl, hw⟩
    · cases hv
      rw [hdisk, hdata, Function.update_self]
      exact ⟨rfl, rfl⟩
    · rw [hw] at hclear
      exact absurd hrest hclear
  case alone =>
    refine one_busy (b := !b) ?_
    rw [hother]
    exact hclear
  case tmp =>
    intro _ i hi
    rw [hdisk, htmp] at hi
    obtain rfl := Option.some.inj hi
    exact hnew
  case gone =>
    intro _ hnone
    rw [hdisk, htmp] at hnone
    cases hnone
  case done =>
    rintro ⟨c, ok, hc⟩
    rw [hs'] at hc
    rcases Saving.set_saver_inv hc with ⟨-, hv⟩ | ⟨-, hw⟩
    · cases hv
    · exact hold (hs.done ⟨_, ok, hw⟩)

/-- A step that leaves the names alone and loses no whole content. -/
theorem Sound.of_dir {s' : Saving} (hdir : s'.disk.dir = s.disk.dir)
    (hbegun : ∃ b, s.saver b ≠ .start) (hwhole : ∀ i, Whole snap s i → Whole snap s' i)
    (hbusy : ∀ b i off rest, s'.saver b = .writing i off rest → rest ≠ [] →
      s'.disk.data i ++ rest = snap b ∧ (s'.disk.data i).length = off)
    (halone : ∀ b, (s'.saver b).Busy → ¬(s'.saver !b).Busy)
    (hdone : ∀ b ok, s'.saver b = .done ok → ∃ i, s.disk.dir path = some i ∧ Whole snap s i) :
    Sound path snap s' := by
  have hfile : (∃ i, s.disk.dir path = some i ∧ Whole snap s i) →
      ∃ i, s'.disk.dir path = some i ∧ Whole snap s' i := by
    rintro ⟨i, hi, hi'⟩
    exact ⟨i, by rwa [hdir], hwhole i hi'⟩
  constructor
  case busy => exact hbusy
  case alone => exact halone
  case tmp => exact fun _ i hi => hwhole i (hs.tmp hbegun i (by rwa [← hdir]))
  case gone => exact fun _ hnone => hfile (hs.gone hbegun (by rwa [← hdir]))
  case done => exact fun ⟨c, ok, hc⟩ => hfile (hdone c ok hc)

/-- It is kept by a write. -/
theorem Sound.writes {inode off : ℕ} {chunk rest : Bytes} (hne : chunk ≠ [])
    (h : s.saver b = .writing inode off (chunk ++ rest)) :
    Sound path snap (s.set b (s.disk.write inode off chunk)
      (.writing inode (off + chunk.length) rest)) := by
  have hmore : chunk ++ rest ≠ [] := fun hnil => hne (List.append_eq_nil_iff.mp hnil).1
  obtain ⟨hsnap, hoff⟩ := hs.busy b inode off _ h hmore
  have hothers : ¬(s.saver !b).Busy := hs.alone b (by rw [h]; exact hmore)
  -- the run writes at the end of the content
  have hdata : (s.disk.write inode off chunk).data =
      Function.update s.disk.data inode (s.disk.data inode ++ chunk) := by
    rw [Disk.write, Disk.setData_data, ← hoff, Disk.overwrite_length]
  obtain ⟨s', hs'⟩ : ∃ s', s' = s.set b (s.disk.write inode off chunk)
      (.writing inode (off + chunk.length) rest) := ⟨_, rfl⟩
  have hself : s'.saver b = .writing inode (off + chunk.length) rest := by
    rw [hs', Saving.set_saver_self]
  have hother : s'.saver (!b) = s.saver (!b) := by rw [hs', Saving.set_saver_not]
  have hdata' : s'.disk.data =
      Function.update s.disk.data inode (s.disk.data inode ++ chunk) := by
    rw [hs', Saving.set_disk, hdata]
  rw [← hs']
  refine hs.of_dir (by rw [hs']; rfl) ⟨b, by rw [h]; exact Saver.noConfusion⟩ ?_ ?_ ?_ ?_
  · intro i hwhole
    by_cases hi : i = inode
    · subst hi
      by_cases hrest : rest = []
      · -- the last bytes complete the snapshot
        refine Or.inl ⟨b, ?_⟩
        rw [hdata', Function.update_self, ← hsnap, hrest, List.append_nil]
      · -- some are left, so the run still stands behind its content
        exact Or.inr ⟨b, _, rest, hself, hrest⟩
    · rcases hwhole with ⟨c, hc⟩ | ⟨c, off', rest', hc, hrest'⟩
      · exact Or.inl ⟨c, by rw [hdata', Function.update_of_ne hi, hc]⟩
      · rcases Bool.eq_or_eq_not c b with rfl | rfl
        · rw [h] at hc
          cases hc
          exact absurd rfl hi
        · rw [hc] at hothers
          exact absurd hrest' hothers
  · intro c i off' rest' hc hrest'
    rw [hs'] at hc
    rcases Saving.set_saver_inv hc with ⟨rfl, hv⟩ | ⟨-, hw⟩
    · cases hv
      -- the bytes went from the rest to the content
      rw [hdata', Function.update_self, List.append_assoc, List.length_append, hoff]
      exact ⟨hsnap, rfl⟩
    · rw [hw] at hothers
      exact absurd hrest' hothers
  · refine one_busy (b := !b) ?_
    rw [hother]
    exact hothers
  · intro c ok hc
    rw [hs'] at hc
    rcases Saving.set_saver_inv hc with ⟨-, hv⟩ | ⟨-, hw⟩
    · cases hv
    · exact hs.done ⟨_, ok, hw⟩

/-- A run that has no bytes left goes on, and the disk stays as it is. -/
theorem Sound.quiet {v : Saver} (hbegun : s.saver b ≠ .start) (hidle : ¬(s.saver b).Busy)
    (hv : ¬v.Busy) (hdone : ∀ ok, v = .done ok → ∃ i, s.disk.dir path = some i ∧ Whole snap s i) :
    Sound path snap (s.set b s.disk v) := by
  refine hs.of_dir rfl ⟨b, hbegun⟩ ?_ ?_ ?_ ?_
  · intro i hwhole
    exact hwhole.stays rfl (Saving.set_saver_not ..) hidle
  · intro c i off rest hc hrest
    rcases Saving.set_saver_inv hc with ⟨-, rfl⟩ | ⟨rfl, hw⟩
    · exact absurd hrest hv
    · exact hs.busy _ i off rest hw hrest
  · refine one_busy (b := b) ?_
    rw [Saving.set_saver_self]
    exact hv
  · intro c ok hc
    rcases Saving.set_saver_inv hc with ⟨-, hv⟩ | ⟨-, hw⟩
    · exact hdone ok hv
    · exact hs.done ⟨_, ok, hw⟩

/-- It is kept by the rename, which makes the snapshot visible. -/
theorem Sound.renames {inode : ℕ} (h : s.saver b = .closed)
    (hdir : s.disk.dir (tmpPath path) = some inode) :
    Sound path snap (s.set b (s.disk.move (tmpPath path) path) (.done true)) := by
  have hbegun : ∃ b, s.saver b ≠ .start := ⟨b, by rw [h]; exact Saver.noConfusion⟩
  obtain ⟨s', hs'⟩ : ∃ s', s' = s.set b (s.disk.move (tmpPath path) path) (.done true) := ⟨_, rfl⟩
  have hself : s'.saver b = .done true := by rw [hs', Saving.set_saver_self]
  have hother : s'.saver (!b) = s.saver (!b) := by rw [hs', Saving.set_saver_not]
  have hdata : s'.disk.data = s.disk.data := by rw [hs', Saving.set_disk, Disk.move_data]
  have hpath : s'.disk.dir path = some inode := by
    rw [hs', Saving.set_disk, Disk.move_dir, if_pos rfl, hdir]
  have htmp : s'.disk.dir (tmpPath path) = none := by
    rw [hs', Saving.set_disk, Disk.move_dir, if_neg (tmpPath_ne path), if_pos rfl]
  -- what the temporary name showed is what the file shows now
  have hfile : ∃ i, s'.disk.dir path = some i ∧ Whole snap s' i := by
    refine ⟨inode, hpath, (hs.tmp hbegun inode hdir).stays ?_ hother (by rw [h]; exact id)⟩
    rw [hdata]
  rw [← hs']
  constructor
  case busy =>
    intro c i off rest hc hrest
    rw [hs'] at hc
    rcases Saving.set_saver_inv hc with ⟨-, hv⟩ | ⟨rfl, hw⟩
    · cases hv
    · rw [hdata]
      -- renaming touches no content
      exact hs.busy _ i off rest hw hrest
  case alone =>
    refine one_busy (b := b) ?_
    rw [hself]
    exact id
  case tmp =>
    intro _ i hi
    rw [htmp] at hi
    cases hi
  case gone => exact fun _ _ => hfile
  case done => exact fun _ => hfile

/-- A step that opens the file only when the other run has no bytes left keeps the invariant. -/
theorem Sound.step {i : Bool × ℕ} (hopens : OpensAlone s i) :
    Sound path snap (saveStep path snap s i).1 := by
  have hstep := @saveStep_steps path snap s i
  generalize (saveStep path snap s i).1 = s' at hstep ⊢
  cases hstep with
  | opens h => exact hs.opens h (hopens h)
  | writes hne h => exact hs.writes hne h
  | closes h =>
    refine hs.quiet (by rw [h]; exact Saver.noConfusion) ?_ id fun ok hok => by cases hok
    rw [h]
    exact fun hbusy => hbusy rfl
  | renames h hdir => exact hs.renames h hdir
  | fails h hdir =>
    -- the other run has renamed the file, so it is in its place
    have hbegun : s.saver i.1 ≠ .start := by rw [h]; exact Saver.noConfusion
    refine hs.quiet hbegun ?_ id fun _ _ => hs.gone ⟨i.1, hbegun⟩ hdir
    rw [h]
    exact id
  | idles h => exact hs

end Step

/-! ### One run alone -/

/-- What the names show while run `b` makes all the steps, on a disk that showed `files`. -/
def Alone (path : Bytes) (data : Bytes) (files : Bytes → Option Bytes) (b : Bool) (s : Saving) :
    Prop :=
  match s.saver b with
  | .start => s.disk.read = files
  | .writing i off rest =>
    s.disk.dir (tmpPath path) = some i ∧ s.disk.data i ++ rest = data ∧
      (s.disk.data i).length = off ∧
      s.disk.read = Function.update files (tmpPath path) (some (s.disk.data i))
  | .closed => s.disk.read = Function.update files (tmpPath path) (some data)
  | .done ok =>
    ok = true ∧ s.disk.read =
      Function.update (Function.update files path (some data)) (tmpPath path) none

/-- A saver that is alone makes its next step alone. -/
theorem Alone.step {files : Bytes → Option Bytes} {b : Bool} {s : Saving}
    (hs : Alone path (snap b) files b s) (n : ℕ) :
    Alone path (snap b) files b (saveStep path snap s (b, n)).1 := by
  have hstep := @saveStep_steps path snap s (b, n)
  generalize (saveStep path snap s (b, n)).1 = s' at hstep ⊢
  cases hstep with
  | opens h =>
    rw [Alone, h] at hs
    obtain ⟨hdir, hdata⟩ := s.disk.openTrunc_eq (tmpPath path)
    have hread := s.disk.read_openTrunc (tmpPath path)
    have hnil :
        (s.disk.openTrunc (tmpPath path)).1.data (s.disk.openTrunc (tmpPath path)).2 = [] := by
      rw [hdata, Function.update_self]
    simp only [Alone, Saving.set_saver_self, Saving.set_disk, hnil]
    exact ⟨by rw [hdir, Function.update_self], rfl, rfl, by rw [hread, hs]⟩
  | @writes inode off chunk rest hne h =>
    rw [Alone, h] at hs
    obtain ⟨hdir, hall, hoff, hread⟩ := hs
    have hwrite : s.disk.write inode off chunk =
        s.disk.setData inode (s.disk.data inode ++ chunk) := by
      rw [Disk.write, ← hoff, Disk.overwrite_length]
    have hdata : (s.disk.setData inode (s.disk.data inode ++ chunk)).data inode =
        s.disk.data inode ++ chunk := by
      rw [Disk.setData_data, Function.update_self]
    simp only [Alone, Saving.set_saver_self, Saving.set_disk, hwrite, hdata]
    refine ⟨hdir, by rw [List.append_assoc, hall], by rw [List.length_append, hoff], ?_⟩
    -- only the temporary name shows the content that grew
    rw [Disk.read_setData hdir, hread, Function.update_idem]
  | closes h =>
    rw [Alone, h] at hs
    obtain ⟨-, hall, -, hread⟩ := hs
    simp only [Alone, Saving.set_saver_self, Saving.set_disk]
    -- nothing is left, so what was written is all of it
    rw [hread, ← hall, List.append_nil]
  | renames h hdir =>
    rw [Alone, h] at hs
    simp only [Alone, Saving.set_saver_self, Saving.set_disk]
    have hren : s.disk.rename (tmpPath path) path = some (s.disk.move (tmpPath path) path) := by
      rw [Disk.rename, hdir]
    refine ⟨trivial, ?_⟩
    rw [Disk.read_rename hren (tmpPath_ne path), hs, Function.update_self,
      Function.update_comm (tmpPath_ne path), Function.update_idem]
  | fails h hdir =>
    -- the temporary file is there
    rw [Alone, h] at hs
    have htmp := congrFun hs (tmpPath path)
    rw [Function.update_self, Disk.read, hdir] at htmp
    cases htmp
  | idles h => exact hs

/-- A run that has made all its steps alone has left what `rdb_save` leaves when every file
operation succeeds. -/
theorem Alone.eq_rdbSave {fs : FileSys} (hopen : fs.canOpen = true) (hroom : fs.room = none)
    (hrename : fs.canRename = true) {d : Dict Obj} {b ok : Bool} {s : Saving}
    (hs : Alone path (snapshot d) fs.files b s) (hdone : s.saver b = .done ok) :
    s.disk.read = (rdbSave fs d path).1.files ∧ ok = (rdbSave fs d path).2 := by
  rw [Alone, hdone] at hs
  obtain ⟨rfl, hread⟩ := hs
  rw [hread, rdbSave, hopen, hroom, saveBody_eq]
  simp only [Bool.not_true, Bool.false_eq_true, if_false, hrename, Writer.fwrite, Writer.put,
    List.nil_append, and_true]
  rw [Function.update_comm (tmpPath_ne path), Function.update_idem]
  rfl

/-- The most steps that a run has still to make. -/
def Saver.left (data : Bytes) : Saver → ℕ
  | .start => data.length + 3
  | .writing _ _ rest => rest.length + 2
  | .closed => 1
  | .done _ => 0

/-- Every step brings the run nearer to its end. -/
theorem saveStep_left (s : Saving) (b : Bool) (n : ℕ) :
    ((saveStep path snap s (b, n)).1.saver b).left (snap b) ≤ (s.saver b).left (snap b) - 1 := by
  have hstep := @saveStep_steps path snap s (b, n)
  generalize (saveStep path snap s (b, n)).1 = s' at hstep ⊢
  cases hstep with
  | opens h =>
    rw [Saving.set_saver_self, h]
    exact le_rfl
  | writes hne h =>
    -- a write takes a byte at least
    have hpos := List.length_pos_of_ne_nil hne
    rw [Saving.set_saver_self, h]
    simp only [Saver.left, List.length_append]
    omega
  | closes h =>
    rw [Saving.set_saver_self, h]
    exact le_rfl
  | renames h _ =>
    rw [Saving.set_saver_self, h]
    exact le_rfl
  | fails h _ =>
    rw [Saving.set_saver_self, h]
    exact le_rfl
  | idles h =>
    rw [h]
    exact le_rfl

/-- Steps of run `b` alone leave what the names show as planned. -/
theorem Alone.run {path : Bytes} (snap : Bool → Bytes) {files : Bytes → Option Bytes} {b : Bool}
    {s : Saving} (hs : Alone path (snap b) files b s) (sizes : List ℕ) :
    Alone path (snap b) files b
      (Transducer.run (saveStep path snap) s (sizes.map fun n => (b, n))).1 := by
  induction sizes generalizing s with
  | nil => exact hs
  | cons n sizes ih => exact ih (hs.step n)

/-- They bring the run to its end. -/
theorem run_left {path : Bytes} (snap : Bool → Bytes) (s : Saving) (b : Bool) (sizes : List ℕ) :
    ((run (saveStep path snap) s (sizes.map fun n => (b, n))).1.saver b).left (snap b) ≤
      (s.saver b).left (snap b) - sizes.length := by
  induction sizes generalizing s with
  | nil => exact le_rfl
  | cons n sizes ih =>
    have hstep := @saveStep_left path snap s b n
    refine (ih (saveStep path snap s (b, n)).1).trans ?_
    rw [List.length_cons]
    omega

/-! ### Two runs -/

/-- **Overlapping snapshots.** When no run opens the temporary file while the other one has
bytes left to write, then once both have returned the file is the snapshot of one of the two
databases. -/
theorem overlapping_saves (path : Bytes) (d : Bool → Dict Obj) (disk : Disk Bytes UInt8)
    (sched : List (Bool × ℕ))
    (hopens : RunOk (saveStep path fun b => snapshot (d b)) OpensAlone (.fresh disk) sched)
    (hdone : ∀ b, ∃ ok,
      (run (saveStep path fun b => snapshot (d b)) (.fresh disk) sched).1.saver b = .done ok) :
    ∃ b, (run (saveStep path fun b => snapshot (d b)) (.fresh disk) sched).1.disk.read path =
      some (snapshot (d b)) := by
  have hsound : Sound path (fun b => snapshot (d b))
      (run (saveStep path fun b => snapshot (d b)) (.fresh disk) sched).1 :=
    invariant_of_runOk (fun s i hs hopens => hs.step hopens) (.fresh disk) hopens
  obtain ⟨ok, hok⟩ := hdone true
  obtain ⟨i, hi, hwhole⟩ := hsound.done ⟨true, ok, hok⟩
  rcases hwhole with ⟨b, hb⟩ | ⟨b, off, rest, hb, -⟩
  · exact ⟨b, by rw [Disk.read, hi, Option.map_some, hb]⟩
  · -- no run is writing any more
    obtain ⟨ok', hok'⟩ := hdone b
    rw [hb] at hok'
    cases hok'

/-- A disk without files. -/
def emptyDisk : Disk Bytes UInt8 where
  dir _ := none
  data _ := []
  next := 0
  fresh _ _ h := by cases h
  inj _ _ _ h := by cases h

/-- Run `false` saves a database of one key, run `true` an empty one. -/
def twoDatabases (b : Bool) : Dict Obj :=
  if b then dictNew else dictSet dictNew (ascii "k") (newObj (.str (ascii "v")))

/-- The first run has written all but its last byte when the second one begins, and goes on
when the second one has returned. Then the file has the bytes of the second run, a gap of zeros,
and a byte of the first. -/
theorem overlapping_saves_corrupt :
    let final := run (saveStep (ascii "dump") fun b => snapshot (twoDatabases b))
      (.fresh emptyDisk) [(false, 0), (false, 41), (true, 0), (true, 99), (true, 0), (true, 0),
        (false, 0), (false, 0), (false, 0)]
    final.1.saver false = .done false ∧ final.1.saver true = .done true ∧
      ¬∃ b, final.1.disk.read (ascii "dump") = some (snapshot (twoDatabases b)) := by
  decide +kernel

/-- The second run begins when the first one has written its last byte, and empties the file
before it is renamed. -/
theorem overlapping_saves_late :
    let step := saveStep (ascii "dump") fun b => snapshot (twoDatabases b)
    let sched : List (Bool × ℕ) := [(false, 0), (false, 99), (true, 0), (true, 9), (false, 0),
      (false, 0), (true, 99), (true, 0), (true, 0)]
    ∃ b, (run step (.fresh emptyDisk) sched).1.disk.read (ascii "dump") =
      some (snapshot (twoDatabases b)) :=
  overlapping_saves (ascii "dump") twoDatabases emptyDisk _ (by decide) fun b => by
    cases b with
    | false => exact ⟨true, by decide⟩
    | true => exact ⟨false, by decide⟩

/-! ### A run of its own -/

/-- **A run of its own is `rdb_save`.** However many bytes each of its writes takes, it comes to its
end, returns what `rdb_save` returns when every file operation succeeds, and leaves the same files,
on any disk. -/
theorem alone_eq_rdbSave {fs : FileSys} (hopen : fs.canOpen = true) (hroom : fs.room = none)
    (hrename : fs.canRename = true) (d : Dict Obj) (path : Bytes) {disk : Disk Bytes UInt8}
    (hdisk : disk.read = fs.files) (b : Bool) (sizes : List ℕ)
    (hsizes : (snapshot d).length + 3 ≤ sizes.length) :
    (run (saveStep path fun _ => snapshot d) (.fresh disk)
        (sizes.map fun n => (b, n))).1.saver b = .done (rdbSave fs d path).2 ∧
      (run (saveStep path fun _ => snapshot d) (.fresh disk)
        (sizes.map fun n => (b, n))).1.disk.read = (rdbSave fs d path).1.files := by
  have hfresh : Alone path (snapshot d) fs.files b (.fresh disk) := hdisk
  have halone := Alone.run (fun _ => snapshot d) hfresh sizes
  have hleft := @run_left path (fun _ => snapshot d) (.fresh disk) b sizes
  generalize (run (saveStep path fun _ => snapshot d) (.fresh disk)
    (sizes.map fun n => (b, n))).1 = s at halone hleft ⊢
  -- after so many steps nothing is left to do
  have hzero : (s.saver b).left (snapshot d) ≤ 0 := hleft.trans (Nat.sub_eq_zero_of_le hsizes).le
  cases hend : s.saver b with
  | done ok =>
    obtain ⟨hread, hok⟩ := halone.eq_rdbSave hopen hroom hrename hend
    exact ⟨by rw [hok], hread⟩
  | start =>
    rw [hend] at hzero
    exact absurd hzero (Nat.not_succ_le_zero _)
  | writing inode off rest =>
    rw [hend] at hzero
    exact absurd hzero (Nat.not_succ_le_zero _)
  | closed =>
    rw [hend] at hzero
    exact absurd hzero (Nat.not_succ_le_zero _)

/-- A database of one key is saved with writes of one byte each. -/
theorem alone_eq_rdbSave_bytes :
    FileSys.fresh.canOpen = true ∧ FileSys.fresh.room = none ∧ FileSys.fresh.canRename = true ∧
      emptyDisk.read = FileSys.fresh.files ∧
      (snapshot (twoDatabases false)).length + 3 ≤ (List.replicate 50 0).length ∧
      (run (saveStep (ascii "dump") fun _ => snapshot (twoDatabases false)) (.fresh emptyDisk)
        ((List.replicate 50 0).map fun n => (true, n))).1.saver true =
          .done (rdbSave .fresh (twoDatabases false) (ascii "dump")).2 ∧
      (run (saveStep (ascii "dump") fun _ => snapshot (twoDatabases false)) (.fresh emptyDisk)
        ((List.replicate 50 0).map fun n => (true, n))).1.disk.read =
          (rdbSave .fresh (twoDatabases false) (ascii "dump")).1.files := by
  have hlong : (snapshot (twoDatabases false)).length + 3 ≤ (List.replicate 50 0).length := by
    decide +kernel
  exact ⟨rfl, rfl, rfl, rfl, hlong, alone_eq_rdbSave rfl rfl rfl (twoDatabases false)
    (ascii "dump") rfl true (List.replicate 50 0) hlong⟩

end Minired
