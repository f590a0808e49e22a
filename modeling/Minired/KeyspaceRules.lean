import Minired.Keyspace

/-!
# Rules for handlers and the keyspace

`Meets libc P m r` says of a handler `m` that, from a session whose database is in `P`, it ends in
one whose database represents the keyspace `r.1`, with a reply of `r.2`, if it returns at all. There
is a rule for each access to the database, one for `withKey` (`meets_withKey`) and one for
`getOrCreate` (`meets_container`).

Both rules are stated once for the four types of values. A `Kind` is such a type: its values in the
code, its contents in the keyspace, and how the two are related.
-/

namespace Minired

open Relational

variable {libc : Libc} {now : Int64} {key : Bytes} {d : Dict Obj} {σ : Keyspace} {o : Obj}
  {e : Entry} {α β : Type}

/-! ### Keyspaces -/

namespace Keyspace

/-- The later of two entries under one key stays. -/
theorem set_set (σ : Keyspace) (key : Bytes) (a b : Option Entry) :
    (σ.set key a).set key b = σ.set key b := Function.update_idem ..

/-- Setting what is there changes nothing. -/
theorem set_same (h : σ key = some e) : σ.set key (some e) = σ := by
  rw [set, ← h, Function.update_eq_self]

/-- What was set is found. -/
theorem set_self (σ : Keyspace) (key : Bytes) (a : Option Entry) : σ.set key a key = a :=
  Function.update_self ..

end Keyspace

/-! ### The representation -/

/-- Both sides agree on whether an entry has expired. -/
theorem EntryRel.expired_eq (h : EntryRel libc o e) (now : Int64) :
    o.expired now = e.expired now.toInt := by
  rw [Bool.eq_iff_iff, Obj.expired_iff, Entry.expired, ← h.deadline, deadlineOf]
  by_cases hzero : o.expireAtMs = 0
  · simp [hzero]
  · simp [hzero]

/-- A new object is an entry without a deadline. -/
theorem EntryRel.fresh {v : Value} {x : Content} (h : ValueRel libc v x) :
    EntryRel libc (newObj v) ⟨x, none⟩ := ⟨h, rfl⟩

namespace StoreRel

/-- The empty table is the empty keyspace. -/
theorem empty : StoreRel libc dictNew fun _ => none where
  wf := wf_dictNew
  get k := by
    rw [dictGet_dictNew]
    exact .none

variable (h : StoreRel libc d σ)

include h

/-- A write to one key. -/
theorem update {d' : Dict Obj} (hwf : d'.WF) {o' : Option Obj} {e' : Option Entry}
    (hget : dictGet d' = Function.update (dictGet d) key o')
    (hrel : Option.Rel (EntryRel libc) o' e') : StoreRel libc d' (σ.set key e') := by
  refine ⟨hwf, fun k => ?_⟩
  rw [hget, Keyspace.set]
  by_cases hk : k = key
  · subst hk
    rwa [Function.update_self, Function.update_self]
  · rw [Function.update_of_ne hk, Function.update_of_ne hk]
    exact h.get k

/-- Storing an object sets its entry. -/
theorem dictSet (key : Bytes) (hrel : EntryRel libc o e) :
    StoreRel libc (dictSet d key o) (σ.set key (some e)) :=
  h.update (wf_dictSet h.wf key o) (dictGet_dictSet h.wf key o) (.some hrel)

/-- Deleting a key clears its entry. -/
theorem dictDel (key : Bytes) : StoreRel libc (dictDel d key).1 (σ.set key none) :=
  h.update (wf_dictDel h.wf key) (dictGet_dictDel h.wf key) .none

/-- Changing an object changes its entry. -/
theorem dictModify {f : Obj → Obj} (hget : dictGet d key = some o)
    (hrel : EntryRel libc (f o) e) : StoreRel libc (dictModify d key f) (σ.set key (some e)) := by
  refine h.update (wf_dictModify h.wf key f) (dictGet_dictModify h.wf key f) ?_
  rw [hget]
  exact .some hrel

/-- What is live of a key. -/
theorem live (now : Int64) (key : Bytes) :
    Option.Rel (EntryRel libc) (live now d key) (σ.live now.toInt key) := by
  have hkey := h.get key
  rw [Minired.live, Keyspace.live]
  generalize dictGet d key = x at hkey ⊢
  generalize σ key = y at hkey ⊢
  cases hkey with
  | none => exact .none
  | some hrel =>
    rw [Option.filter_some, Option.filter_some, hrel.expired_eq now]
    split
    · exact .some hrel
    · exact .none

/-- The lazy check. -/
theorem check (now : Int64) (key : Bytes) :
    StoreRel libc (checkExpiry now d key).1 (σ.set key (σ.live now.toInt key)) :=
  h.update (wf_checkExpiry h.wf now key) (dictGet_checkExpiry h.wf now key) (h.live now key)

/-- The keys that are stored. -/
theorem isSome_eq (key : Bytes) : (dictGet d key).isSome = (σ key).isSome := by
  have hkey := h.get key
  revert hkey
  cases dictGet d key <;> cases σ key <;> intro hkey <;> cases hkey <;> rfl

/-- `dict_size` counts them. -/
theorem size_eq : dictSize d = size σ := by
  rw [DictRel.size_eq ⟨h.wf, rfl⟩, size]
  congr 1
  ext k
  have hkey := h.isSome_eq k
  simp only [Set.mem_ofPred_eq, ne_eq, ← Option.not_isSome_iff_eq_none, hkey]

end StoreRel

/-! ### Handlers -/

/-- The globals that the snapshots are about. -/
def Globals.host (g : Globals) : FileSys × Bool × List (Dict Obj) × Bytes :=
  (g.fs, g.canFork, g.children, g.rdbPath)

/-- From a session with its database in `P`, the handler, if it returns, leaves a database that
represents the keyspace, one of the replies, and what the snapshots are about as it was. -/
def Meets (libc : Libc) (P : Dict Obj → Prop) (m : Cmd Unit) (r : Keyspace × Set Bytes) : Prop :=
  ∀ s s', P s.dict → exec m s = (.ok (), s') →
    StoreRel libc s'.dict r.1 ∧ (∃ reply ∈ r.2, s'.writeBuf = s.writeBuf ++ reply) ∧
      s'.host = s.host

/-- The database represents the keyspace and has the object under the key. -/
structure HasAt (libc : Libc) (σ : Keyspace) (key : Bytes) (o : Obj) (d : Dict Obj) : Prop where
  rel : StoreRel libc d σ
  get : dictGet d key = some o

section Rules

variable {P : Dict Obj → Prop} {R : Set Bytes} {data : Bytes}

/-- A handler whose run is known. -/
theorem meets_of_run {m : Cmd Unit} {σ' : Keyspace}
    (h : ∀ s, P s.dict → ∃ t data, exec m s = (.ok (), t) ∧ StoreRel libc t.dict σ' ∧ data ∈ R ∧
      t.writeBuf = s.writeBuf ++ data ∧ t.host = s.host) : Meets libc P m (σ', R) := by
  intro s s' hs hrun
  obtain ⟨t, data, hexec, hrel, hmem, hbuf, hhost⟩ := h s hs
  obtain ⟨-, rfl⟩ := Prod.mk.inj (hexec.symm.trans hrun)
  exact ⟨hrel, ⟨data, hmem, hbuf⟩, hhost⟩

/-- Nothing but a reply. -/
theorem meets_emit (hP : ∀ d, P d → StoreRel libc d σ) (hdata : data ∈ R) :
    Meets libc P (emit data) (σ, R) :=
  meets_of_run fun s hs => ⟨_, data, exec_emit data s, hP _ hs, hdata, rfl, rfl⟩

/-- A conversion, or an operation on numbers, that must succeed. -/
theorem meets_raise {x : Except Fault α} {f : α → Cmd Unit} {r : Keyspace × Set Bytes}
    (h : ∀ a, x = .ok a → Meets libc P (f a) r) : Meets libc P (raise x >>= f) r := by
  intro s s' hs hrun
  cases x with
  | ok a => exact h a rfl s s' hs hrun
  | error e => exact absurd (congrArg Prod.fst hrun) (by simp [raise])

/-- A handler that looks up its key, live or not. -/
theorem meets_dbGet {f : Option Obj → Cmd Unit} {r : Keyspace × Set Bytes}
    (hnone : σ key = none → Meets libc (fun d => StoreRel libc d σ) (f none) r)
    (hsome : ∀ o e, EntryRel libc o e → σ key = some e →
      Meets libc (HasAt libc σ key o) (f (some o)) r) :
    Meets libc (fun d => StoreRel libc d σ) (dbGet key >>= f) r := by
  intro s s' hs hrun
  have hkey := hs.get key
  rw [exec_bind_ok (exec_dbGet key s)] at hrun
  cases hdict : dictGet s.dict key with
  | none =>
    rw [hdict] at hkey hrun
    refine hnone ?_ s s' hs hrun
    generalize σ key = x at hkey ⊢
    cases hkey
    rfl
  | some o =>
    rw [hdict] at hkey hrun
    obtain ⟨e, he, hrel⟩ : ∃ e, σ key = some e ∧ EntryRel libc o e := by
      generalize σ key = x at hkey ⊢
      cases hkey with
      | some hrel => exact ⟨_, rfl, hrel⟩
    exact hsome o e hrel he s s' ⟨hs, hdict⟩ hrun

/-- A write of the whole object, and a reply. -/
theorem meets_dbSet (key : Bytes) {x : Entry} (hP : ∀ d, P d → StoreRel libc d σ)
    (hrel : EntryRel libc o x) (hdata : data ∈ R) :
    Meets libc P (dbSet key o >>= fun _ => emit data) (σ.set key (some x), R) :=
  meets_of_run fun _ hs => ⟨_, data, rfl, (hP _ hs).dictSet key hrel, hdata, rfl, rfl⟩

/-- A new object under a key of which nothing is live, and a reply. -/
theorem meets_make {v : Value} {x : Content} (hrel : ValueRel libc v x) (hdata : data ∈ R) :
    Meets libc (fun d => StoreRel libc d (σ.set key none))
      (dbSet key (newObj v) >>= fun _ => emit data) (σ.set key (some ⟨x, none⟩), R) := by
  have hset := meets_dbSet (P := fun d => StoreRel libc d (σ.set key none)) key (fun _ hd => hd)
    (EntryRel.fresh hrel) hdata
  rwa [Keyspace.set_set] at hset

/-- A write through the pointer to an object, and a reply. -/
theorem meets_dbModify {x : Entry} {f : Obj → Obj} (hrel : EntryRel libc (f o) x)
    (hdata : data ∈ R) :
    Meets libc (HasAt libc σ key o) (dbModify key f >>= fun _ => emit data)
      (σ.set key (some x), R) :=
  meets_of_run fun _ hs => ⟨_, data, rfl, hs.rel.dictModify hs.get hrel, hdata, rfl, rfl⟩

/-- **The lazy handler.** It goes on with what is live of its key. -/
theorem meets_withKey {missing : Cmd Unit} {found : Obj → Cmd Unit} {f : Effect Content}
    (hmissing : Meets libc (fun d => StoreRel libc d (σ.set key none)) missing
      (σ.set key ((f none).1.map fun x => ⟨x, none⟩), (f none).2))
    (hfound : ∀ o e, EntryRel libc o e → σ key = some e →
      Meets libc (HasAt libc σ key o) (found o)
        (σ.set key ((f (some e.content)).1.map fun x => ⟨x, e.deadline⟩),
          (f (some e.content)).2)) :
    Meets libc (fun d => StoreRel libc d σ) (withKey now key missing found)
      (σ.onKey now.toInt key f) := by
  intro s s' hs hrun
  have hlive := hs.live now key
  have hcheck := hs.check now key
  rw [Keyspace.onKey]
  rw [exec_withKey hs.wf] at hrun
  cases hdict : Minired.live now s.dict key with
  | none =>
    rw [hdict] at hlive hrun
    generalize σ.live now.toInt key = x at hlive hcheck ⊢
    cases hlive
    exact hmissing { s with dict := (checkExpiry now s.dict key).1 } s' hcheck hrun
  | some o =>
    rw [hdict] at hlive hrun
    -- a live key is stored, and the check leaves it alone
    have hsame := checkExpiry_of_live hdict
    obtain ⟨hget, -⟩ := live_eq_some_iff.mp hdict
    cases hkey : σ.live now.toInt key with
    | none =>
      rw [hkey] at hlive
      cases hlive
    | some e =>
      rw [hkey] at hlive
      cases hlive with
      | some hrel =>
        have hstored : σ key = some e := (Option.filter_eq_some_iff.mp hkey).1
        rw [hsame] at hrun
        exact hfound o e hrel hstored s s' ⟨hs, hget⟩ hrun

end Rules

/-! ### The four types -/

/-- A type of values: those of the code, those of the keyspace, and their relation. -/
structure Kind (libc : Libc) (β α : Type) where
  value : β → Value
  content : α → Content
  value? : Value → Option β
  content? : Content → Option α
  Rel : β → α → Prop
  value_value : ∀ b, value? (value b) = some b
  value_eq : ∀ {v b}, value? v = some b → v = value b
  content_eq : ∀ {x a}, content? x = some a → x = content a
  rel : ∀ {v x}, ValueRel libc v x → Option.Rel Rel (value? v) (content? x)
  wrap : ∀ {b a}, Rel b a → ValueRel libc (value b) (content a)

/-- The text of a string. -/
def Value.str? : Value → Option Bytes
  | .str s => some s
  | _ => none

namespace Kind

/-- Strings. -/
def string (libc : Libc) : Kind libc Bytes Bytes where
  value := .str
  content := .str
  value? := Value.str?
  content? := Content.str?
  Rel s t := s = t
  value_value _ := rfl
  value_eq {v _} h := by
    cases v with
    | str => exact congrArg _ (Option.some.inj h)
    | _ => cases h
  content_eq {x _} h := by
    cases x with
    | str => exact congrArg _ (Option.some.inj h)
    | _ => cases h
  rel {v x} h := by
    cases v <;> cases x <;> first | exact .none | exact .some h | exact h.elim
  wrap h := h

/-- Lists. -/
def list (libc : Libc) : Kind libc (List Bytes) (List Bytes) where
  value := .list
  content := .list
  value? := Value.list?
  content? := Content.list?
  Rel l k := l = k
  value_value _ := rfl
  value_eq {v _} h := by
    cases v with
    | list => exact congrArg _ (Option.some.inj h)
    | _ => cases h
  content_eq {x _} h := by
    cases x with
    | list => exact congrArg _ (Option.some.inj h)
    | _ => cases h
  rel {v x} h := by
    cases v <;> cases x <;> first | exact .none | exact .some h | exact h.elim
  wrap h := h

/-- Hashes. -/
def hash (libc : Libc) : Kind libc (Dict Bytes) (Bytes → Option Bytes) where
  value := .hash
  content := .hash
  value? := Value.hash?
  content? := Content.hash?
  Rel := DictRel
  value_value _ := rfl
  value_eq {v _} h := by
    cases v with
    | hash => exact congrArg _ (Option.some.inj h)
    | _ => cases h
  content_eq {x _} h := by
    cases x with
    | hash => exact congrArg _ (Option.some.inj h)
    | _ => cases h
  rel {v x} h := by
    cases v <;> cases x <;> first | exact .none | exact .some h | exact h.elim
  wrap h := h

/-- Sorted sets. -/
def zset (libc : Libc) : Kind libc ZSet (Bytes → Option Double) where
  value := .zset
  content := .zset
  value? := Value.zset?
  content? := Content.zset?
  Rel := ZRel libc
  value_value _ := rfl
  value_eq {v _} h := by
    cases v with
    | zset => exact congrArg _ (Option.some.inj h)
    | _ => cases h
  content_eq {x _} h := by
    cases x with
    | zset => exact congrArg _ (Option.some.inj h)
    | _ => cases h
  rel {v x} h := by
    cases v <;> cases x <;> first | exact .none | exact .some h | exact h.elim
  wrap h := h

end Kind

section Typed

variable (k : Kind libc β α) {c : Command} {f : Effect α}

/-- **A handler of one type.** On a value of another type it replies and does nothing else. -/
theorem meets_typed {missing : Cmd Unit} {found : Obj → Cmd Unit}
    (hother : ∀ v t, k.value? v = none → found ⟨v, t⟩ = emit c.mismatchReply)
    (hmissing : Meets libc (fun d => StoreRel libc d (σ.set key none)) missing
      (σ.set key ((f none).1.map fun a => ⟨k.content a, none⟩), (f none).2))
    (hfound : ∀ b a t, k.Rel b a → σ key = some ⟨k.content a, deadlineOf t⟩ →
      Meets libc (HasAt libc σ key ⟨k.value b, t⟩) (found ⟨k.value b, t⟩)
        (σ.set key ((f (some a)).1.map fun a => ⟨k.content a, deadlineOf t⟩), (f (some a)).2)) :
    Meets libc (fun d => StoreRel libc d σ) (withKey now key missing found)
      (σ.onKey now.toInt key (typed c k.content k.content? f)) := by
  refine meets_withKey ?_ fun o e hrel hkey => ?_
  · rw [typed, Option.map_map]
    exact hmissing
  · obtain ⟨v, t⟩ := o
    obtain ⟨content, deadline⟩ := e
    obtain ⟨hcontent, rfl⟩ := hrel
    have hkind := k.rel hcontent
    cases hvalue : k.value? v with
    | none =>
      -- another type: nothing is changed
      rw [hvalue] at hkind
      have hnone : k.content? content = none := by
        generalize k.content? content = x at hkind
        cases hkind
        rfl
      rw [hother v t hvalue, typed, hnone, Option.map_some, Keyspace.set_same hkey]
      exact meets_emit (fun _ hd => hd.rel) rfl
    | some b =>
      rw [hvalue] at hkind
      obtain ⟨a, hsome, hba⟩ : ∃ a, k.content? content = some a ∧ k.Rel b a := by
        generalize k.content? content = x at hkind
        cases hkind with
        | some hba => exact ⟨_, rfl, hba⟩
      obtain rfl := k.value_eq hvalue
      obtain rfl := k.content_eq hsome
      rw [typed, hsome, Option.map_map]
      exact hfound b a t hba hkey

/-- A handler of one type that only reads. -/
theorem meets_reader {missing : Cmd Unit} {found : Obj → Cmd Unit}
    (hother : ∀ v t, k.value? v = none → found ⟨v, t⟩ = emit c.mismatchReply)
    (hf : ∀ a, (f a).1 = a) (hmissing : ∃ data ∈ (f none).2, missing = emit data)
    (hfound : ∀ b a t σ, k.Rel b a →
      Meets libc (HasAt libc σ key ⟨k.value b, t⟩) (found ⟨k.value b, t⟩) (σ, (f (some a)).2)) :
    Meets libc (fun d => StoreRel libc d σ) (withKey now key missing found)
      (σ.onKey now.toInt key (typed c k.content k.content? f)) := by
  refine meets_typed k hother ?_ fun b a t hba hkey => ?_
  · obtain ⟨data, hdata, rfl⟩ := hmissing
    rw [hf, Option.map_none]
    exact meets_emit (fun _ hd => hd) hdata
  · rw [hf, Option.map_some, Keyspace.set_same hkey]
    exact hfound b a t σ hba

/-- **A handler that makes its container** when the key is missing. -/
theorem meets_container {fresh : β} {fresh' : α} {F : Option β → Cmd Unit}
    (hfresh : k.Rel fresh fresh') (hf : f none = f (some fresh'))
    (hother : F none = emit c.mismatchReply)
    (hfound : ∀ σ b a t, k.Rel b a → σ key = some ⟨k.content a, deadlineOf t⟩ →
      Meets libc (HasAt libc σ key ⟨k.value b, t⟩) (F (some b))
        (σ.set key ((f (some a)).1.map fun a => ⟨k.content a, deadlineOf t⟩), (f (some a)).2)) :
    Meets libc (fun d => StoreRel libc d σ) (getOrCreate fresh k.value k.value? now key >>= F)
      (σ.onKey now.toInt key (typed c k.content k.content? f)) := by
  rw [getOrCreate_bind]
  refine meets_typed k (fun v t hnone => ?_) ?_ fun b a t hba hkey => ?_
  · rw [hnone, hother]
  · -- the new container, without a deadline, and then as if it had been there
    intro s s' hs hrun
    have hrel := hs.dictSet key (EntryRel.fresh (k.wrap hfresh))
    rw [Keyspace.set_set] at hrel
    have hget := dictGet_dictSet_self hs.wf key (newObj (k.value fresh))
    have hmade := hfound (σ.set key (some ⟨k.content fresh', none⟩)) fresh fresh' 0 hfresh
      (Keyspace.set_self ..)
    rw [Keyspace.set_set, ← hf] at hmade
    exact hmade { s with dict := dictSet s.dict key (newObj (k.value fresh)) } s' ⟨hrel, hget⟩ hrun
  · rw [k.value_value]
    exact hfound σ b a t hba hkey

/-- A write of a value of the type under its key, and a reply. -/
theorem meets_setValue {R : Set Bytes} {data : Bytes} {b : β} {a : α} {v : Value} {t : Int64}
    (hba : k.Rel b a) (hdata : data ∈ R) :
    Meets libc (HasAt libc σ key ⟨v, t⟩)
      (dbModify key (Obj.setValue (k.value b)) >>= fun _ => emit data)
      (σ.set key (some ⟨k.content a, deadlineOf t⟩), R) :=
  meets_dbModify ⟨k.wrap hba, rfl⟩ hdata

end Typed

end Minired
