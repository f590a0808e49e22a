import Minired.Footprint
import Minired.RdbTables

/-!
# Stored values

What the server stores is in order: in every reachable database the tables of hashes and sorted
sets are well formed, and the skip lists are linked (`Reachable.values`).

The operations on values do not leave the well formed ones (`valueClass_wf`). `rdb_load` builds
its values with the same operations (`ValueClass.readValue`), so a class of values that holds of
all that is stored is kept by loading, by the commands and by the sweep (`Reachable.holds`).
-/

namespace Minired

open Relational

variable {libc : Libc} {G : Value → Prop}

/-! ### Sorted sets -/

/-- `zset_add` keeps a sorted set well formed, and its member is in the skip list. -/
theorem zsetAdd_wf (libc : Libc) {z : ZSet} (hz : (Value.zset z).WF) (member : Bytes)
    (score : Double) (coins : Coins) :
    (∃ C, (zsetAdd libc z member score coins).1.sl.Holds C ∧ (member, score) ∈ C) ∧
      (zsetAdd libc z member score coins).1.ht.WF := by
  obtain ⟨⟨C, hC⟩, hht⟩ := hz
  exact ⟨exists_holds_zsetAdd libc hC member score coins, wf_dictSet hht member _⟩

/-- `zset_rem` keeps a sorted set well formed. -/
theorem zsetRem_wf (libc : Libc) {z : ZSet} (hz : (Value.zset z).WF) (member : Bytes) :
    (Value.zset (zsetRem libc z member).1).WF := by
  obtain ⟨⟨C, hC⟩, hht⟩ := hz
  rw [zsetRem]
  cases htGetScore libc z.ht member with
  | none => exact ⟨⟨C, hC⟩, hht⟩
  | some score =>
    obtain ⟨C', hC', -⟩ := hC.delete member score
    exact ⟨⟨C', hC'⟩, wf_dictDel hht member⟩

/-- **The well formed values** are a class. -/
theorem valueClass_wf (libc : Libc) : ValueClass libc Value.WF where
  str _ := trivial
  list _ := trivial
  hashNew := wf_dictNew
  hashSet _ field value hh := wf_dictSet hh field value
  hashDel _ field hh := wf_dictDel hh field
  zsetNew := ⟨⟨[], holds_slNew⟩, wf_dictNew⟩
  zsetAdd z member score coins hz := by
    obtain ⟨⟨C, hC, -⟩, hht⟩ := zsetAdd_wf libc hz member score coins
    exact ⟨⟨C, hC⟩, hht⟩
  zsetRem z member hz := zsetRem_wf libc hz member

/-! ### Values that are loaded -/

/-- A hash that is loaded is in the class. -/
theorem ValueClass.readHash (hG : ValueClass libc G) (n : ℕ) (r : Reader) (h : Dict Bytes)
    (hh : G (.hash h)) : ∀ h', (readHash n r h).2 = some h' → G (.hash h') := by
  fun_induction Minired.readHash n r h with
  | case1 r h => exact fun h' heq => Option.some.inj heq ▸ hh
  | case2 n r h r' hread => exact fun h' heq => by cases heq
  | case3 n r h r' field hfield r'' hread => exact fun h' heq => by cases heq
  | case4 n r h r' field hfield r'' val hval ih => exact ih (hG.hashSet h field val hh)

/-- So is a sorted set. -/
theorem ValueClass.readZSet (hG : ValueClass libc G) (n : ℕ) (r : Reader) (z : ZSet)
    (coins : Coins) (hz : G (.zset z)) :
    ∀ z', (readZSet libc n r z coins).2 = some z' → G (.zset z') := by
  fun_induction Minired.readZSet libc n r z coins with
  | case1 r z coins => exact fun z' heq => Option.some.inj heq ▸ hz
  | case2 n r z coins r' hread => exact fun z' heq => by cases heq
  | case3 n r z coins r' score hscore r'' hread => exact fun z' heq => by cases heq
  | case4 n r z coins r' score hscore r'' member hmember z' coins' hadd ih =>
    refine ih ?_
    have hclass := hG.zsetAdd z member score coins hz
    rwa [hadd] at hclass

/-- **Loading** makes values of every class. -/
theorem ValueClass.readValue (hG : ValueClass libc G) (type : ℕ) (r : Reader) (coins : Coins)
    (v : Value) (hv : (readValue libc type r coins).2 = some v) : G v := by
  unfold Minired.readValue at hv
  -- a string, a list, a hash, a sorted set, or no type
  split at hv
  case h_1 =>
    obtain ⟨s, -, rfl⟩ := Option.map_eq_some_iff.mp hv
    exact hG.str s
  case h_2 =>
    rcases hcount : r.readUInt 4 with ⟨r', _ | count⟩
    · rw [hcount] at hv
      cases hv
    · rw [hcount] at hv
      obtain ⟨l, -, rfl⟩ := Option.map_eq_some_iff.mp hv
      exact hG.list l
  case h_3 =>
    rcases hcount : r.readUInt 4 with ⟨r', _ | count⟩
    · rw [hcount] at hv
      cases hv
    · rw [hcount] at hv
      obtain ⟨h, hh, rfl⟩ := Option.map_eq_some_iff.mp hv
      exact hG.readHash count r' dictNew hG.hashNew h hh
  case h_4 =>
    rcases hcount : r.readUInt 4 with ⟨r', _ | count⟩
    · rw [hcount] at hv
      cases hv
    · rw [hcount] at hv
      obtain ⟨z, hz, rfl⟩ := Option.map_eq_some_iff.mp hv
      exact hG.readZSet count r' Minired.zsetNew coins hG.zsetNew z hz
  case h_5 => cases hv

/-! ### The invariant -/

/-- Every value of the table is in the class. -/
structure AllValues (G : Value → Prop) (d : Dict Obj) : Prop where
  wf : d.WF
  mem : ∀ key o, dictGet d key = some o → G o.value

/-- There is no value in an empty database. -/
theorem AllValues.fresh : AllValues G dictNew :=
  ⟨wf_dictNew, fun key o ho => by rw [dictGet_dictNew] at ho; cases ho⟩

/-- One key gets a value of the class, or none. -/
theorem AllValues.update {d d' : Dict Obj} (h : AllValues G d) (key : Bytes) (hd' : d'.WF)
    {v : Option Obj} (hget : dictGet d' = Function.update (dictGet d) key v)
    (hv : ∀ o, v = some o → G o.value) : AllValues G d' := by
  refine ⟨hd', fun k o ho => ?_⟩
  rw [hget] at ho
  by_cases hk : k = key
  · subst hk
    rw [Function.update_self] at ho
    exact hv o ho
  · rw [Function.update_of_ne hk] at ho
    exact h.mem k o ho

/-- A value of the class can be stored. -/
theorem AllValues.set {d : Dict Obj} (h : AllValues G d) (key : Bytes) {o : Obj}
    (ho : G o.value) : AllValues G (dictSet d key o) :=
  h.update key (wf_dictSet h.wf key o) (dictGet_dictSet h.wf key o) fun _ heq =>
    Option.some.inj heq ▸ ho

/-- What is live is in the class. -/
theorem AllValues.of_live {d : Dict Obj} (h : AllValues G d) {now : Int64} {key : Bytes} {o : Obj}
    (hlive : live now d key = some o) : G o.value :=
  h.mem key o (live_eq_some_iff.mp hlive).1

/-- A check of a deadline only removes. -/
theorem AllValues.check {d : Dict Obj} (h : AllValues G d) (now : Int64) (key : Bytes) :
    AllValues G (checkExpiry now d key).1 :=
  h.update key (wf_checkExpiry h.wf now key) (dictGet_checkExpiry h.wf now key) fun _ ho =>
    h.of_live ho

/-- A value that is written through the pointer. -/
theorem AllValues.write {d : Dict Obj} (h : AllValues G d) (key : Bytes) {v : Value} (hv : G v) :
    AllValues G (dictModify d key (Obj.setValue v)) :=
  h.update key (wf_dictModify h.wf key _) (dictGet_dictModify h.wf key _) fun o ho => by
    obtain ⟨o', -, rfl⟩ := Option.map_eq_some_iff.mp ho
    exact hv

/-- **The class** is kept by every operation within a footprint. -/
theorem footprint_allValues (now : Int64) (key : Bytes) :
    Footprint now key G (AllValues G) where
  check _ h := h.check now key
  get _ o h ho := h.mem key o ho
  set _ _ hv h := h.set key hv
  del d h := h.update key (wf_dictDel h.wf key) (dictGet_dictDel h.wf key) fun _ ho => by cases ho
  write _ _ hv h := h.write key hv
  deadline d t h :=
    h.update key (wf_dictModify h.wf key _) (dictGet_dictModify h.wf key _) fun o ho => by
      obtain ⟨o', ho', rfl⟩ := Option.map_eq_some_iff.mp ho
      exact h.mem key o' ho'

/-- Checks of keys keep what the check of any key keeps. -/
theorem checkKeys_keeps {p : Dict Obj → Prop} {now : Int64}
    (hcheck : ∀ d key, p d → p (checkExpiry now d key).1) (keys : List Bytes) {d : Dict Obj}
    (hd : p d) : p (keys.foldl (fun d key => (checkExpiry now d key).1) d) := by
  induction keys generalizing d with
  | nil => exact hd
  | cons key keys ih => exact ih (hcheck d key hd)

/-- The sweep only checks keys. -/
theorem sweepPass_keeps {p : Dict Obj → Prop} {now : Int64}
    (hcheck : ∀ d key, p d → p (checkExpiry now d key).1) {d : Dict Obj} (hd : p d) :
    p (sweepPass now d) := checkKeys_keeps hcheck _ hd

/-- **A command** stores values of the class only. -/
theorem AllValues.command (hG : ValueClass libc G) (now : Int64) (args : List Bytes)
    {s : Session} (h : AllValues G s.dict) :
    AllValues G (exec (dispatchCommand libc now args) s).2.dict := by
  rcases args with _ | ⟨name, args⟩
  · exact h
  cases hfind : findCommand name with
  | none =>
    rw [dispatchCommand, hfind]
    exact h
  | some c =>
    rw [dispatchCommand_of_find hfind]
    by_cases hc : c = .FLUSHDB
    · -- nothing is left
      subst hc
      exact AllValues.fresh
    · exact keeps_footprint hG hc (fun k _ => footprint_allValues now k) s h

/-- **The values of a reachable database** are in every class that loading and the commands do
not leave. -/
theorem Reachable.holds (hG : ValueClass libc G) {d : Dict Obj} (hd : Reachable libc d) :
    AllValues G d := by
  induction hd with
  | load now file coins =>
    exact rdbLoad_keeps (P := AllValues G) hG.readValue
      (fun d key obj hobj h => h.set key hobj) now file coins AllValues.fresh
  | command now args hs ih => exact ih.command hG now args
  | sweep now hd ih => exact sweepPass_keeps (fun d key h => h.check now key) ih

/-- **Invariant.** The values of a reachable database are well formed. -/
theorem Reachable.values {d : Dict Obj} (hd : Reachable libc d) : AllValues Value.WF d :=
  hd.holds (valueClass_wf libc)

end Minired
