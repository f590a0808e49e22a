import Minired.CommandsSync

/-!
# Reachable databases

`main` makes an empty database, loads the snapshot into it, if there is one, and then serves
commands of any number of clients, while the sweep runs in the background. `Reachable` is what
can come of this: any file may have been loaded at any time, the clocks of the steps are
arbitrary, and a command may come from any client, with any replies still to be sent.

`Reachable.wf` is the invariant: the table is well formed.
-/

namespace Minired

open Relational

variable (libc : Libc)

/-- The databases that the server can have. -/
inductive Reachable : Dict Obj → Prop
  /-- The start: `rdb_load` into a new database, whether it succeeds or not. -/
  | load (now : Int64) (file : Option Bytes) (coins : Coins) :
      Reachable (rdbLoad libc now file dictNew coins).1.dict
  /-- A command, also one that ends in an exception. -/
  | command (now : Int64) (args : List Bytes) {s : Session} (hs : Reachable s.dict) :
      Reachable (exec (dispatchCommand libc now args) s).2.dict
  /-- A pass of the sweep. -/
  | sweep (now : Int64) {d : Dict Obj} (hd : Reachable d) : Reachable (sweepPass now d)

variable {libc}

/-! ### Loading keeps what `dict_set` keeps -/

section Load

variable {G : Value → Prop} {P : Dict Obj → Prop}
  (hread : ∀ type r coins v, (readValue libc type r coins).2 = some v → G v)
  (hset : ∀ d key obj, G obj.value → P d → P (dictSet d key obj))

include hread hset

/-- An entry that is loaded keeps the property. -/
theorem loadEntry_keeps (now : Int64) {s : LoadState} (hs : P s.dict) :
    P (loadEntry libc now s).1.dict := by
  unfold loadEntry
  -- a short read ends the entry with the dictionary as it was
  rcases s.reader.readUInt 1 with ⟨r, _ | type⟩
  · exact hs
  dsimp only
  rcases r.readI64 with ⟨r, _ | expireAtMs⟩
  · exact hs
  dsimp only
  rcases r.readBlob with ⟨r, _ | key⟩
  · exact hs
  dsimp only
  rcases hvalue : readValue libc type r s.coins with ⟨⟨r', coins⟩, _ | value⟩
  · exact hs
  have hG : G value := hread type r s.coins value (by rw [hvalue])
  dsimp only
  -- an expired entry is dropped, any other is set
  split
  · exact hs
  · exact hset _ _ ⟨value, expireAtMs⟩ hG hs

/-- So does the loop over the entries. -/
theorem loadLoop_keeps (now : Int64) (n : ℕ) {s : LoadState} (hs : P s.dict) :
    P (loadLoop libc now n s).1.dict := by
  induction n generalizing s with
  | zero => exact hs
  | succ n ih =>
    have hentry : P (loadEntry libc now s).1.dict := loadEntry_keeps hread hset now hs
    rw [loadLoop]
    rcases h : loadEntry libc now s with ⟨s', _ | _⟩
    · rwa [h] at hentry
    · rw [h] at hentry
      exact ih hentry

/-- So does a load, whatever the file holds. -/
theorem rdbLoad_keeps (now : Int64) (file : Option Bytes) {d : Dict Obj} (coins : Coins)
    (hd : P d) : P (rdbLoad libc now file d coins).1.dict := by
  unfold rdbLoad
  -- the header is checked field by field, before anything is set
  rcases file with _ | content
  · exact hd
  dsimp only
  rcases (⟨content, 0, true, false⟩ : Reader).read 4 with ⟨r, _ | magic⟩
  · exact hd
  dsimp only
  split_ifs
  · exact hd
  rcases r.readUInt 4 with ⟨r, _ | ver⟩
  · exact hd
  dsimp only
  split_ifs
  · exact hd
  rcases r.readUInt 8 with ⟨r, _ | keyCount⟩
  · exact hd
  dsimp only
  have hloop : P (loadLoop libc now keyCount ⟨r, d, coins⟩).1.dict :=
    loadLoop_keeps hread hset now keyCount hd
  rcases h : loadLoop libc now keyCount ⟨r, d, coins⟩ with ⟨s, _ | _⟩
  · rwa [h] at hloop
  · rw [h] at hloop
    dsimp only
    -- the checksum decides about the answer, not about what is loaded
    split_ifs
    · exact hloop
    · exact hloop

end Load

/-- **Invariant.** Every reachable table is well formed. -/
theorem Reachable.wf {d : Dict Obj} (h : Reachable libc d) : d.WF := by
  induction h with
  | load now file coins =>
    exact rdbLoad_keeps (G := fun _ => True) (P := Dict.WF) (fun _ _ _ _ _ => trivial)
      (fun _ key obj _ hd => wf_dictSet hd key obj) now file coins wf_dictNew
  | command now args hs ih => exact wf_dispatchCommand libc now args ih
  | sweep now hd ih => exact wf_sweepPass ih now

/-- A server that has just started without a snapshot, and a new client. -/
def Session.fresh : Session where
  dict := dictNew
  coins := fun _ => false
  fs := FileSys.fresh
  canFork := true
  children := []
  rdbPath := ascii "./dump.rdb"
  writeBuf := []
  closing := false

/-- The database of a new server, which found no snapshot. -/
theorem reachable_fresh : Reachable libc Session.fresh.dict := .load 0 none fun _ => false

variable (libc) in
/-- What commands leave, one after the other at one time. -/
def afterCommands (now : Int64) (commands : List (List Bytes)) (s : Session) : Session :=
  commands.foldl (fun s args => (exec (dispatchCommand libc now args) s).2) s

/-- Commands lead from one reachable database to another. -/
theorem Reachable.afterCommands (now : Int64) (commands : List (List Bytes)) {s : Session}
    (hs : Reachable libc s.dict) :
    Reachable libc (Minired.afterCommands libc now commands s).dict := by
  induction commands generalizing s with
  | nil => exact hs
  | cons args commands ih => exact ih (.command now args hs)

/-! ### The keys that a command names -/

/-- The arguments of a command that are keys, its name being the first argument. -/
def Command.keys (c : Command) (args : List Bytes) : List Bytes :=
  match c with
  | .DEL | .EXISTS => args.tail
  | .PING | .ECHO | .DBSIZE | .QUIT | .FLUSHDB | .SELECT | .KEYS | .SAVE | .BGSAVE => []
  | _ => args.tail.take 1

/-- The key of a command with a single one is `args[1]`. -/
theorem eq_arg_of_mem_take {args : List Bytes} {k : Bytes} (hk : k ∈ args.tail.take 1) :
    arg args 1 = k ∧ ¬args.length < 2 := by
  rcases args with _ | ⟨name, _ | ⟨key, args⟩⟩
  · exact absurd hk List.not_mem_nil
  · exact absurd hk List.not_mem_nil
  · rw [List.tail_cons, List.take_succ_cons, List.take_zero, List.mem_singleton] at hk
    exact ⟨hk.symm, by simp⟩

/-- What `dispatch_command` runs. -/
theorem dispatchCommand_of_find {now : Int64} {name : Bytes} {c : Command} {args : List Bytes}
    (hc : findCommand name = some c) :
    dispatchCommand libc now (name :: args) = c.handler libc now (name :: args) := by
  rw [dispatchCommand, hc]

end Minired
