import Minired.RdbTables
import Minired.SaveOverlap
import Minired.KeyspaceCommands

/-!
# Snapshots and restarts

A snapshot is what is left of the store when the process dies. `snapshot_reload` says what it
means: loading the file of a database that represents a keyspace gives a database that represents
the same keyspace without the keys that have expired meanwhile. The tables and skip lists of the two
have nothing to do with each other.

`Vault` is the store with its disk: the keyspace, the keyspace that the file holds, and those that
the children of `BGSAVE` are going to save. `Vault.Step` adds to the commands and the sweep of
`Keyspace.Step` the end of a child, its death on the way, and the death of the process followed by
a restart, also in the middle of a `SAVE`. `Host.Step` is the same for the code, where a save that
is cut short has made any number of the steps of `saveStep`. `durable_runs` is trace inclusion.

One save is made at a time here; `overlapping_saves` is about the others. Every write of a snapshot
succeeds; what comes of it otherwise is `rdb_save_failed_iff`. What is saved must be `Storable`: the
buffers of `write_entry` cut off larger containers.
-/

namespace Minired

open Relational Refinement KeyedList Posix Transducer

variable {libc : Libc} {d : Dict Obj} {σ : Keyspace}

/-! ### What a snapshot means -/

/-- The value is written whole. -/
def Value.Storable : Value → Prop
  | .str s => SmallBlob s
  | .list l => l.length < 2 ^ 32 ∧ ∀ x ∈ l, SmallBlob x
  | .hash h => htableLen h ≤ RDB_BUFFER ∧ ∀ e ∈ h.entries, SmallBlob e.key ∧ SmallBlob e.val
  | .zset z => zsetCard z ≤ RDB_BUFFER ∧ ∀ e ∈ z.ht.entries, SmallBlob e.key

/-- The database is written whole. -/
structure Storable (d : Dict Obj) : Prop where
  count : d.count < 2 ^ 64
  entries : ∀ e ∈ d.entries, SmallBlob e.key ∧ e.val.value.Storable

/-- The entry is dropped by a restart: its deadline has passed, and not just now. -/
def Entry.dropped (now : ℤ) (e : Entry) : Bool := e.deadline.any fun t => t < now

/-- What a restart makes of a keyspace. -/
def Keyspace.reload (now : ℤ) (σ : Keyspace) : Keyspace := fun k =>
  (σ k).filter fun e => !e.dropped now

/-- An object is dropped at load time exactly when its entry is. -/
theorem EntryRel.dropped_iff {o : Obj} {e : Entry} (h : EntryRel libc o e) (now : Int64) :
    o.dropped now ↔ e.dropped now.toInt = true := by
  rw [Entry.dropped, ← h.deadline, deadlineOf, Obj.dropped]
  split_ifs with hzero
  · simp [hzero]
  · simp [hzero]

/-- The records of a sorted set that fits into the buffer are its members, in order. -/
theorem ZRel.records {z : ZSet} {M : Bytes → Option Double} (h : ZRel libc z M)
    (hcard : zsetCard z ≤ RDB_BUFFER) :
    Ordered (zsetRecords z) ∧ ∀ m s, (m, s) ∈ zsetRecords z ↔ M m = some s := by
  obtain ⟨C, hC, ho, hM⟩ := h.sl
  obtain ⟨hlen, hrec⟩ := zsetRecords_eq hC (hcard.trans_lt (by decide))
  have hsame : (C.map fun c => (cstr c.1, c.2)) = C := by
    refine (List.map_congr_left fun c hc => ?_).trans (List.map_id C)
    rw [(ho.nulFree c hc).cstr_eq]
    rfl
  rw [hsame, List.take_of_length_le (hlen ▸ hcard)] at hrec
  rw [hrec]
  exact ⟨ho, hM⟩

/-- They build a sorted set with the same scores. -/
theorem ZRel.reload (hlibc : libc.Exact) {z : ZSet} {M : Bytes → Option Double}
    (h : ZRel libc z M) (hcard : zsetCard z ≤ RDB_BUFFER) (coins : Coins) :
    ZRel libc (buildZSet libc zsetNew coins (zsetRecords z)).1 M := by
  obtain ⟨ho, hM⟩ := h.records hcard
  have hplain : ∀ p ∈ zsetRecords z, NulFree p.1 ∧ p.2.isNaN = false := fun p hp =>
    h.plain ((hM p.1 p.2).mp hp)
  have hbuild := ZRel.build hlibc hplain coins ZRel.fresh
  have hmap : laterWins (zsetRecords z) = M := by
    funext m
    refine Option.ext fun s => ?_
    rw [laterWins_of_nodup ho.nodup, hM]
  rwa [← hmap]

/-- A value that is written whole comes back as what it means. -/
theorem ValueRel.reload (hlibc : libc.Exact) {v : Value} {x : Content} (h : ValueRel libc v x)
    (hstore : v.Storable) (coins : Coins) : ValueRel libc (reloadValue libc coins v).1 x := by
  cases v with
  | str s => exact h
  | list l => exact h
  | hash t =>
    cases x with
    | hash m =>
      obtain ⟨hwf, hget⟩ := h
      obtain ⟨hwf', -, hsame⟩ := reloadHash_spec hwf
      exact ⟨hwf', (funext (hsame hstore.1)).trans hget⟩
    | _ => exact h.elim
  | zset z =>
    cases x with
    | zset M => exact ZRel.reload hlibc h hstore.1 coins
    | _ => exact h.elim

/-- The lengths and counts in the file are right. -/
theorem ValueRel.sized {v : Value} {x : Content} (h : ValueRel libc v x) (hstore : v.Storable) :
    v.Sized := by
  cases v with
  | str s => exact hstore
  | list l => exact hstore
  | hash t => exact hstore.2
  | zset z =>
    cases x with
    | zset M =>
      obtain ⟨hcard, hsmall⟩ := hstore
      have hz : ZRel libc z M := h
      obtain ⟨C, hC, -, -⟩ := hz.sl
      obtain ⟨hlen, hrec⟩ := zsetRecords_eq hC (hcard.trans_lt (by decide))
      refine ⟨?_, fun c hc => ?_⟩
      · rw [toUInt32_toNat (hcard.trans_lt (by decide)), hrec, List.length_take, List.length_map,
          ← hlen, min_eq_right hcard]
      · -- a member of the skip list is one of the table
        have hmem := ((hz.records hcard).2 c.1 c.2).mp hc
        have hget := congrFun hz.get c.1
        rw [hmem] at hget
        exact hsmall _ ((dictGet_eq_some_iff hz.wf).mp hget)
    | _ => exact h.elim

/-- A database that can be stored has sizes that fit. -/
theorem StoreRel.sized (h : StoreRel libc d σ) (hstore : Storable d) : d.Sized := by
  refine ⟨hstore.count, fun e he => ⟨(hstore.entries e he).1, ?_⟩⟩
  have hkey := h.get e.key
  rw [(dictGet_eq_some_iff h.wf).mpr he] at hkey
  generalize σ e.key = x at hkey
  cases hkey with
  | some hrel => exact hrel.content.sized (hstore.entries e he).2

/-- **A snapshot** means the keyspace that its database represents. -/
theorem snapshot_reload (hlibc : libc.Exact) (h : StoreRel libc d σ) (hstore : Storable d)
    (now : Int64) (coins : Coins) :
    (rdbLoad libc now (some (snapshot d)) dictNew coins).2 = true ∧
      StoreRel libc (rdbLoad libc now (some (snapshot d)) dictNew coins).1.dict
        (σ.reload now.toInt) := by
  -- the snapshot as a save leaves it on an empty disk
  have hopen : FileSys.fresh.canOpen = true := rfl
  obtain ⟨-, hload, -, hback⟩ := rdb_reload libc hopen rfl rfl now h.wf (h.sized hstore) [] coins
  rw [(rdbSave_eq hopen rfl rfl d []).2] at hload hback
  refine ⟨hload, hback.wf, fun k => ?_⟩
  have hkey := h.get k
  rw [Keyspace.reload]
  cases hd : dictGet d k with
  | none =>
    rw [hd] at hkey
    rw [hback.absent k hd]
    generalize σ k = x at hkey ⊢
    cases hkey
    exact .none
  | some o =>
    rw [hd] at hkey
    generalize σ k = x at hkey ⊢
    cases hkey with
    | @some _ e hrel =>
      have hiff := hrel.dropped_iff now
      by_cases hdrop : o.dropped now
      · rw [hback.dropped k o hd hdrop, Option.filter_some, hiff.mp hdrop]
        exact .none
      · obtain ⟨coins', hget⟩ := hback.kept k o hd hdrop
        have hentry := (dictGet_eq_some_iff h.wf).mp hd
        have hkeep : e.dropped now.toInt = false := Bool.not_eq_true _ ▸ mt hiff.mpr hdrop
        rw [hget, Option.filter_some, hkeep]
        exact .some ⟨hrel.content.reload hlibc (hstore.entries _ hentry).2 coins', hrel.deadline⟩

/-! ### The store and its disk -/

/-- What happens to the program and its machine. -/
inductive HostEvent
  /-- A command, or a `check_expiry` of the sweep. -/
  | store (e : StoreEvent)
  /-- From now on files can be opened and renamed, or not, and `fork` succeeds, or not. -/
  | kernel (canOpen canRename canFork : Bool)
  /-- A child of `BGSAVE` saves, and exits. -/
  | child
  /-- A child is killed before its end. -/
  | kill
  /-- The process dies, and is started again. -/
  | restart (now : Int64)
  /-- The process dies in the middle of a `SAVE`, and is started again. -/
  | restartSaving (now : Int64)

/-- The event is a command that takes a snapshot. -/
def StoreEvent.isSave : StoreEvent → Bool
  | .command _ args => (findCommand (arg args 0)).any Command.isSave
  | .sweep _ _ => false

/-- The keyspace, the one that the file holds, if there is a file, and those of the children. A save
works when files can be opened and renamed. -/
structure Vault where
  current : Keyspace
  saved : Option Keyspace
  pending : List Keyspace
  works : Bool
  forks : Bool

/-- What a restart finds. -/
def Vault.restart (now : ℤ) (v : Vault) : Vault :=
  { v with current := (v.saved.getD fun _ => none).reload now }

/-- **The specification of the store and its disk.** A save is done as a whole or not at all. -/
inductive Vault.Step (libc : Libc) : Spec Vault HostEvent Bytes
  | store {v : Vault} {e : StoreEvent} {reply : Bytes} {σ : Keyspace} (hsave : e.isSave = false)
      (hstep : Keyspace.Step libc v.current e reply σ) :
      Step libc v (.store e) reply { v with current := σ }
  | save {v : Vault} {now : Int64} {args : List Bytes}
      (hcmd : findCommand (arg args 0) = some .SAVE) :
      Step libc v (.store (.command now args)) (saveReply v.works)
        { v with saved := if v.works then some v.current else v.saved }
  | bgsave {v : Vault} {now : Int64} {args : List Bytes}
      (hcmd : findCommand (arg args 0) = some .BGSAVE) :
      Step libc v (.store (.command now args)) (bgsaveReply v.forks)
        { v with pending := if v.forks then v.pending ++ [v.current] else v.pending }
  | kernel {v : Vault} {canOpen canRename canFork : Bool} :
      Step libc v (.kernel canOpen canRename canFork) []
        { v with works := canOpen && canRename, forks := canFork }
  | child {v : Vault} {before after : List Keyspace} {σ : Keyspace}
      (hpending : v.pending = before ++ σ :: after) :
      Step libc v .child []
        { v with
          pending := before ++ after
          saved := if v.works then some σ else v.saved }
  | kill {v : Vault} {before after : List Keyspace} {σ : Keyspace} (done : Bool)
      (hpending : v.pending = before ++ σ :: after) :
      Step libc v .kill []
        { v with
          pending := before ++ after
          saved := if done then some σ else v.saved }
  | restart {v : Vault} {now : Int64} : Step libc v (.restart now) [] (v.restart now.toInt)
  | restartSaving {v : Vault} {now : Int64} (done : Bool) :
      Step libc v (.restartSaving now) []
        ({ v with saved := if done then some v.current else v.saved }.restart now.toInt)

/-! ### The code's store and its disk -/

/-- What a save of the database that does not come to its end leaves of the files: it has made some
of its steps. -/
def CutShort (path : Bytes) (d : Dict Obj) (fs fs' : FileSys) : Prop :=
  ∃ (disk : Disk Bytes UInt8) (sizes : List ℕ), disk.read = fs.files ∧
    fs' = { fs with
      files := (run (saveStep path fun _ => snapshot d) (.fresh disk)
        (sizes.map fun n => (true, n))).1.disk.read }

/-- `main`, as far as the store goes: an empty database, and `rdb_load`. -/
def Globals.restart (libc : Libc) (now : Int64) (coins : Coins) (g : Globals) : Globals :=
  let load := (rdbLoad libc now (g.fs.files g.rdbPath) dictNew coins).1
  { g with dict := load.dict, coins := load.coins }

/-- **A step of the code.** The children go on when the process dies. -/
inductive Host.Step (libc : Libc) : Spec Globals HostEvent Bytes
  | store {g g' : Globals} {e : StoreEvent} {reply : Bytes}
      (hstep : Globals.Step libc g e reply g') : Step libc g (.store e) reply g'
  | kernel {g : Globals} {canOpen canRename canFork : Bool} :
      Step libc g (.kernel canOpen canRename canFork) []
        { g with
          fs := { g.fs with canOpen := canOpen, canRename := canRename }
          canFork := canFork }
  | child {g : Globals} {before after : List (Dict Obj)} {d : Dict Obj}
      (hchildren : g.children = before ++ d :: after) :
      Step libc g .child []
        { g with
          fs := (rdbSave g.fs d g.rdbPath).1
          children := before ++ after }
  | kill {g : Globals} {before after : List (Dict Obj)} {d : Dict Obj} {fs : FileSys}
      (hchildren : g.children = before ++ d :: after) (hcut : CutShort g.rdbPath d g.fs fs) :
      Step libc g .kill [] { g with fs := fs, children := before ++ after }
  | restart {g : Globals} {now : Int64} (coins : Coins) :
      Step libc g (.restart now) [] (g.restart libc now coins)
  | restartSaving {g : Globals} {now : Int64} {fs : FileSys} (coins : Coins)
      (hcut : CutShort g.rdbPath g.dict g.fs fs) :
      Step libc g (.restartSaving now) [] ({ g with fs := fs }.restart libc now coins)

/-- Commands are plain, and what is saved is written whole. -/
def HostEvent.Fits (libc : Libc) (g : Globals) : HostEvent → Prop
  | .store e => e.Plain libc ∧ (e.isSave = true → Storable g.dict)
  | .restartSaving _ => Storable g.dict
  | _ => True

/-- The file is what a save of the keyspace has left, if there has been one. -/
def SavedRel (libc : Libc) (file : Option Bytes) : Option Keyspace → Prop
  | none => file = none
  | some σ => ∃ d, file = some (snapshot d) ∧ StoreRel libc d σ ∧ Storable d

/-- The program and its files represent the store and its disk. -/
structure VaultRel (libc : Libc) (g : Globals) (v : Vault) : Prop where
  current : StoreRel libc g.dict v.current
  saved : SavedRel libc (g.fs.files g.rdbPath) v.saved
  pending : List.Forall₂ (fun d σ => StoreRel libc d σ ∧ Storable d) g.children v.pending
  room : g.fs.room = none
  works : v.works = (g.fs.canOpen && g.fs.canRename)
  forks : v.forks = g.canFork

/-! ### What a save leaves -/

/-- A save changes the file if it succeeds, and the rest of the disk stays fit for the next one. -/
theorem rdbSave_cases {fs : FileSys} (hroom : fs.room = none) (d : Dict Obj) (path : Bytes) :
    let r := rdbSave fs d path
    r.2 = (fs.canOpen && fs.canRename) ∧ r.1.room = none ∧
      (r.1.canOpen && r.1.canRename) = (fs.canOpen && fs.canRename) ∧
      r.1.files path =
        if fs.canOpen && fs.canRename then some (snapshot d) else fs.files path := by
  obtain ⟨files, canOpen, room, canRename⟩ := fs
  obtain rfl : room = none := hroom
  have hpath := (tmpPath_ne path).symm
  rw [rdbSave, saveBody_eq]
  simp only [Writer.fwrite, Writer.put, List.nil_append]
  cases canOpen with
  | false => simp
  | true =>
    cases canRename with
    | false => simp [Function.update_of_ne hpath]
    | true =>
      simp only [Bool.not_true, Bool.false_eq_true, if_false, Bool.and_self, if_true,
        Function.update_of_ne hpath, Function.update_self, true_and]
      rfl

/-- **A save that is cut short** has changed the file to the whole snapshot, or not at all. -/
theorem CutShort.file {path : Bytes} {fs fs' : FileSys} (h : CutShort path d fs fs') :
    ∃ done : Bool, fs'.files path = if done then some (snapshot d) else fs.files path := by
  obtain ⟨disk, sizes, hdisk, rfl⟩ := h
  have hstart : Alone path (snapshot d) fs.files true (.fresh disk) := hdisk
  have hend := Alone.run (fun _ => snapshot d) hstart sizes
  revert hend
  generalize (Transducer.run (saveStep path fun _ => snapshot d) (.fresh disk)
    (sizes.map fun n => (true, n))).1 = s
  intro hend
  have hpath := (tmpPath_ne path).symm
  rw [Alone] at hend
  dsimp only
  -- up to the rename the file is the old one
  cases hsaver : s.saver true with
  | start =>
    rw [hsaver] at hend
    exact ⟨false, congrFun hend path⟩
  | writing i off rest =>
    rw [hsaver] at hend
    refine ⟨false, ?_⟩
    rw [hend.2.2.2, Function.update_of_ne hpath]
    rfl
  | closed =>
    rw [hsaver] at hend
    refine ⟨false, ?_⟩
    rw [hend, Function.update_of_ne hpath]
    rfl
  | done ok =>
    rw [hsaver] at hend
    refine ⟨true, ?_⟩
    rw [hend.2, Function.update_of_ne hpath, Function.update_self]
    rfl

/-- The rest of the disk stays fit for the next save. -/
theorem CutShort.kernel {path : Bytes} {fs fs' : FileSys} (h : CutShort path d fs fs') :
    fs'.room = fs.room ∧ fs'.canOpen = fs.canOpen ∧ fs'.canRename = fs.canRename := by
  obtain ⟨disk, sizes, -, rfl⟩ := h
  exact ⟨rfl, rfl, rfl⟩

/-- The file of a save that was finished, or the one that was there. -/
theorem SavedRel.save {file : Option Bytes} {saved : Option Keyspace}
    (h : SavedRel libc file saved) (hd : StoreRel libc d σ) (hstore : Storable d) (done : Bool) :
    SavedRel libc (if done then some (snapshot d) else file)
      (if done then some σ else saved) := by
  cases done with
  | false => exact h
  | true => exact ⟨d, rfl, hd, hstore⟩

/-- A member of the first list and its partner in the second one. -/
theorem forall₂_split {α β : Type} {R : α → β → Prop} {before after : List α} {a : α}
    {bs : List β} (h : List.Forall₂ R (before ++ a :: after) bs) :
    ∃ before' b after', bs = before' ++ b :: after' ∧ R a b ∧
      List.Forall₂ R (before ++ after) (before' ++ after') := by
  induction before generalizing bs with
  | nil =>
    cases h with
    | cons hab hrest => exact ⟨[], _, _, rfl, hab, hrest⟩
  | cons c before ih =>
    cases h with
    | cons hc hrest =>
      obtain ⟨before', b, after', rfl, hab, hothers⟩ := ih hrest
      exact ⟨_ :: before', b, after', rfl, hab, .cons hc hothers⟩

/-! ### Steps and runs -/

namespace VaultRel

variable {g : Globals} {v : Vault} (hlibc : libc.Exact) (h : VaultRel libc g v)

include h

/-- A change of the database alone. -/
theorem setCurrent (g' : Globals) (hhost : g'.host = g.host) (hd : StoreRel libc g'.dict σ) :
    VaultRel libc g' { v with current := σ } := by
  obtain ⟨hfs, hrest⟩ := Prod.mk.inj hhost
  obtain ⟨hfork, hrest⟩ := Prod.mk.inj hrest
  obtain ⟨hchildren, hpath⟩ := Prod.mk.inj hrest
  refine ⟨hd, ?_, ?_, ?_, ?_, ?_⟩
  · rw [hfs, hpath]
    exact h.saved
  · rw [hchildren]
    exact h.pending
  · rw [hfs]
    exact h.room
  · rw [hfs]
    exact h.works
  · rw [hfork]
    exact h.forks

/-- **A snapshot** of a database that is written whole, made by `rdb_save`. -/
theorem save {d : Dict Obj} (hd : StoreRel libc d σ) (hstore : Storable d) :
    (rdbSave g.fs d g.rdbPath).2 = v.works ∧
      VaultRel libc { g with fs := (rdbSave g.fs d g.rdbPath).1 }
        { v with saved := if v.works then some σ else v.saved } := by
  obtain ⟨hok, hroom, hworks, hfile⟩ := rdbSave_cases h.room d g.rdbPath
  rw [← h.works] at hok hworks hfile
  refine ⟨hok, h.current, ?_, h.pending, hroom, hworks.symm, h.forks⟩
  dsimp only
  rw [hfile]
  exact h.saved.save hd hstore v.works

/-- A snapshot that is cut short. -/
theorem cutShort {d : Dict Obj} {fs : FileSys} (hcut : CutShort g.rdbPath d g.fs fs)
    (hd : StoreRel libc d σ) (hstore : Storable d) :
    ∃ done : Bool, VaultRel libc { g with fs := fs }
      { v with saved := if done then some σ else v.saved } := by
  obtain ⟨done, hfile⟩ := hcut.file
  obtain ⟨hroom, hopen, hrename⟩ := hcut.kernel
  refine ⟨done, h.current, ?_, h.pending, hroom.trans h.room, ?_, h.forks⟩
  · dsimp only
    rw [hfile]
    exact h.saved.save hd hstore done
  · dsimp only
    rw [hopen, hrename]
    exact h.works

/-- Another list of children. -/
theorem setPending {children : List (Dict Obj)} {pending : List Keyspace}
    (hpending : List.Forall₂ (fun d σ => StoreRel libc d σ ∧ Storable d) children pending) :
    VaultRel libc { g with children := children } { v with pending := pending } :=
  ⟨h.current, h.saved, hpending, h.room, h.works, h.forks⟩

/-- A child more, if `fork` succeeds. -/
theorem pended (hstore : Storable g.dict) :
    List.Forall₂ (fun d σ => StoreRel libc d σ ∧ Storable d)
      (if g.canFork then g.children ++ [g.dict] else g.children)
      (if v.forks then v.pending ++ [v.current] else v.pending) := by
  rw [h.forks]
  split_ifs
  · exact List.rel_append h.pending (.cons ⟨h.current, hstore⟩ .nil)
  · exact h.pending

include hlibc

/-- **A restart** brings back what the file holds. -/
theorem restart (now : Int64) (coins : Coins) :
    VaultRel libc (g.restart libc now coins) (v.restart now.toInt) := by
  refine ⟨?_, h.saved, h.pending, h.room, h.works, h.forks⟩
  have hsaved := h.saved
  rw [Globals.restart, Vault.restart]
  cases hv : v.saved with
  | none =>
    rw [hv] at hsaved
    have hfile : g.fs.files g.rdbPath = none := hsaved
    dsimp only
    rw [hfile]
    exact StoreRel.empty
  | some σ =>
    rw [hv] at hsaved
    obtain ⟨d, hfile, hd, hstore⟩ := hsaved
    dsimp only
    rw [hfile]
    exact (snapshot_reload hlibc hd hstore now coins).2

/-- A command that takes no snapshot, or a look of the sweep. -/
theorem store {e : StoreEvent} {reply : Bytes} {g' : Globals} (hplain : e.Plain libc)
    (hsave : e.isSave = false) (hstep : Globals.Step libc g e reply g') :
    ∃ v', Vault.Step libc v (.store e) reply v' ∧ VaultRel libc g' v' := by
  cases hstep with
  | @command g now args s hrun =>
    have hother : ∀ c, findCommand (arg args 0) = some c → c.isSave = false := by
      intro c hc
      rwa [StoreEvent.isSave, hc, Option.any_some] at hsave
    obtain ⟨hend, ⟨reply, hmem, hbuf⟩, hhost⟩ := meets_dispatch hlibc hplain hother
      { g with writeBuf := [], closing := false } s h.current hrun
    have hreply : s.writeBuf = reply := hbuf
    exact ⟨_, .store hsave (.command (hreply ▸ hmem)), h.setCurrent _ hhost hend⟩
  | @sweep g now key =>
    have hcheck := h.current.check now key
    refine ⟨_, .store hsave .sweep, ?_⟩
    exact h.setCurrent { g with dict := (checkExpiry now g.dict key).1 } rfl hcheck

end VaultRel

/-- **The program refines the store and its disk.** -/
theorem host_refines (hlibc : libc.Exact) :
    Refines (VaultRel libc) (fun _ => True) ((Host.Step libc).guard (HostEvent.Fits libc))
      (Vault.Step libc) := by
  rintro g v event reply g' - h ⟨hfits, hstep⟩
  cases hstep with
  | @store g g' e reply hstep =>
    obtain ⟨hplain, hstorable⟩ := hfits
    cases hsave : e.isSave with
    | false => exact h.store hlibc hplain hsave hstep
    | true =>
      -- a save: it is one of the two commands
      have hstore := hstorable hsave
      cases hstep with
      | sweep => cases hsave
      | @command g now args s hrun =>
        obtain ⟨c, hcmd, hc⟩ := Option.any_eq_true _ _ |>.mp hsave
        cases c with
        | SAVE =>
          -- the file is what the database was, and the reply says so
          obtain ⟨-, rfl⟩ := Prod.mk.inj ((exec_save hcmd _).symm.trans hrun)
          obtain ⟨hok, hend⟩ := h.save h.current hstore
          refine ⟨_, ?_, hend⟩
          show Vault.Step libc v _ ([] ++ saveReply (rdbSave g.fs g.dict g.rdbPath).2) _
          rw [List.nil_append, hok]
          exact .save hcmd
        | BGSAVE =>
          -- a child more, which has what the database was
          obtain ⟨-, rfl⟩ := Prod.mk.inj ((exec_bgsave hcmd _).symm.trans hrun)
          refine ⟨_, ?_, h.setPending (h.pended hstore)⟩
          show Vault.Step libc v _ ([] ++ bgsaveReply g.canFork) _
          rw [List.nil_append, ← h.forks]
          exact .bgsave hcmd
        | _ => cases hc
  | kernel => exact ⟨_, .kernel, h.current, h.saved, h.pending, h.room, rfl, rfl⟩
  | @child g before after d hchildren =>
    obtain ⟨before', σ, after', hpending, ⟨hd, hstore⟩, hothers⟩ :=
      forall₂_split (hchildren ▸ h.pending)
    obtain ⟨-, hend⟩ := h.save hd hstore
    exact ⟨_, .child hpending, hend.setPending hothers⟩
  | @kill g before after d fs hchildren hcut =>
    -- the file is the old one or that of the child
    obtain ⟨before', σ, after', hpending, ⟨hd, hstore⟩, hothers⟩ :=
      forall₂_split (hchildren ▸ h.pending)
    obtain ⟨done, hend⟩ := h.cutShort hcut hd hstore
    exact ⟨_, .kill done hpending, hend.setPending hothers⟩
  | restart coins => exact ⟨_, .restart, h.restart hlibc _ coins⟩
  | restartSaving coins hcut =>
    obtain ⟨done, hend⟩ := h.cutShort hcut h.current hfits
    exact ⟨_, .restartSaving done, hend.restart hlibc _ coins⟩

/-- **Durability.** Every run of the program on its machine, with commands, sweeps, children that
save or are killed, and restarts, also in the middle of a save, is a run of the specification with
the same replies. So a keyspace whose `SAVE` was answered with `OK` is what every later restart
finds, up to the keys that have expired, until another save takes its place. -/
theorem durable_runs (hlibc : libc.Exact) {g g' : Globals} {v : Vault}
    {trace : List (HostEvent × Bytes)}
    (hrun : Runs ((Host.Step libc).guard (HostEvent.Fits libc)) g trace g')
    (h : VaultRel libc g v) :
    ∃ v', Runs (Vault.Step libc) v trace v' ∧ VaultRel libc g' v' :=
  (host_refines hlibc).runs hrun (fun _ _ => trivial) h

/-- A `SET`, a `SAVE`, another `SET` and a restart: the first value is back. -/
theorem durable_runs_set :
    let set := fun v : String => [ascii "SET", ascii "k", ascii v]
    let trace : List (HostEvent × Bytes) :=
      [(.store (.command 0 (set "v")), ascii "+OK" ++ crlf),
        (.store (.command 0 [ascii "SAVE"]), saveReply true),
        (.store (.command 0 (set "w")), ascii "+OK" ++ crlf), (.restart 0, [])]
    ∃ g' v', ((dictGet g'.dict (ascii "k")).bind fun o => o.value.str?) = some (ascii "v") ∧
      Runs (Vault.Step Libc.plain) ⟨fun _ => none, none, [], true, true⟩ trace v' ∧
      VaultRel Libc.plain g' v' := by
  intro set trace
  -- the states of the program
  let after : Globals → List Bytes → Session := fun g args =>
    (exec (dispatchCommand Libc.plain 0 args) { g with writeBuf := [], closing := false }).2
  let g₁ := (after Session.fresh.toGlobals (set "v")).toGlobals
  let g₂ := (after g₁ [ascii "SAVE"]).toGlobals
  let g₃ := (after g₂ (set "w")).toGlobals
  have hplain : ∀ args, findCommand (arg args 0) ≠ some .ZADD →
      StoreEvent.Plain Libc.plain (.command 0 args) := fun _ hne hzadd => absurd hzadd hne
  have hstorable : Storable g₁.dict := by
    have hget := dictGet_oneKey (ascii "k") (.str (ascii "v"))
    refine ⟨by decide, fun e he => ?_⟩
    have he' := (dictGet_eq_some_iff (wf_dictSet wf_dictNew _ _)).mpr he
    obtain ⟨hkey, hval⟩ := hget e.key e.val |>.mp he'
    rw [hkey, hval]
    exact ⟨by decide, show SmallBlob (ascii "v") by decide⟩
  have hrun : Runs ((Host.Step Libc.plain).guard (HostEvent.Fits Libc.plain))
      Session.fresh.toGlobals trace (g₃.restart Libc.plain 0 fun _ => false) := by
    refine .cons ⟨⟨hplain _ (by decide), fun h => absurd h (by decide)⟩,
      .store (.command (s := after Session.fresh.toGlobals (set "v")) rfl)⟩ ?_
    refine .cons ⟨⟨hplain _ (by decide), fun _ => hstorable⟩,
      .store (.command (s := after g₁ [ascii "SAVE"]) rfl)⟩ ?_
    refine .cons ⟨⟨hplain _ (by decide), fun h => absurd h (by decide)⟩,
      .store (.command (s := after g₂ (set "w")) rfl)⟩ ?_
    exact .single ⟨trivial, .restart _⟩
  obtain ⟨v', hspec, hend⟩ := durable_runs Libc.plain_exact hrun
    (v := ⟨fun _ => none, none, [], true, true⟩)
    ⟨StoreRel.empty, rfl, .nil, rfl, rfl, rfl⟩
  exact ⟨_, v', by decide, hspec, hend⟩

end Minired
