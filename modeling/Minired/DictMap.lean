import Minired.Dict
import Minired.Lib.Transducer

/-!
# The hash table refines a finite map

The abstract table is a partial function from keys to values. `DictOp.onMap` says what
each call means on it, `DictOp.onDict` runs the call on the table of `Minired.Dict`, and
`DictRel` relates the two: the table is well formed and looks up what the function says.

`dict_refines_map` is about an arbitrary sequence of calls on a fresh table. The calls
answer as the partial function does, `dict_size` counts its domain, `dict_each` visits
its graph once, and the table keeps its representation invariant.
-/

namespace Minired

open KeyedList Transducer

variable {α : Type}

/-- A call on the table. -/
inductive DictOp (α : Type)
  | set (key : Bytes) (val : α)
  | get (key : Bytes)
  | del (key : Bytes)

/-- The answer of a call: `dict_set` returns nothing, `dict_get` a value or null, and
`dict_del` whether it removed something. -/
inductive DictAnswer (α : Type)
  | done
  | got (val : Option α)
  | removed (found : Bool)

/-- The call on the table. -/
def DictOp.onDict (d : Dict α) : DictOp α → Dict α × DictAnswer α
  | .set key val => (dictSet d key val, .done)
  | .get key => (d, .got (dictGet d key))
  | .del key => ((dictDel d key).1, .removed (dictDel d key).2)

/-- The call on a partial function: the last `set` of a key not followed by a `del` of it
decides what the key has. -/
def DictOp.onMap (m : Bytes → Option α) : DictOp α → (Bytes → Option α) × DictAnswer α
  | .set key val => (Function.update m key (some val), .done)
  | .get key => (m, .got (m key))
  | .del key => (Function.update m key none, .removed (m key).isSome)

/-- The table represents the partial function. -/
structure DictRel (d : Dict α) (m : Bytes → Option α) : Prop where
  wf : d.WF
  get : dictGet d = m

/-- The new table is the empty map. -/
theorem DictRel.fresh : DictRel (dictNew : Dict α) (fun _ => none) where
  wf := wf_dictNew
  get := dictGet_dictNew

/-- One call keeps the representation and gives the same answer on both sides. -/
theorem DictRel.step {d : Dict α} {m : Bytes → Option α} (h : DictRel d m) (op : DictOp α) :
    DictRel (op.onDict d).1 (op.onMap m).1 ∧ (op.onDict d).2 = (op.onMap m).2 := by
  obtain ⟨hwf, rfl⟩ := h
  cases op with
  | set key val => exact ⟨⟨wf_dictSet hwf key val, dictGet_dictSet hwf key val⟩, rfl⟩
  | get key => exact ⟨⟨hwf, rfl⟩, rfl⟩
  | del key =>
    obtain ⟨hwf', -, hfound⟩ := dictDel_spec hwf key
    exact ⟨⟨hwf', dictGet_dictDel hwf key⟩, congrArg DictAnswer.removed hfound⟩

/-- The keys of the entries are the domain of the map, so their number is its size. -/
theorem DictRel.size_eq {d : Dict α} {m : Bytes → Option α} (h : DictRel d m) :
    dictSize d = {key | m key ≠ none}.ncard := by
  obtain ⟨hwf, rfl⟩ := h
  have hdom : {key | dictGet d key ≠ none} =
      ((d.entries.map DictEntry.key).toFinset : Set Bytes) := by
    ext key
    rw [Set.mem_ofPred_eq, Ne, dictGet_eq_none_iff hwf, List.coe_toFinset, Set.mem_ofPred_eq,
      List.mem_map]
    push Not
    rfl
  rw [hdom, Set.ncard_coe_finset, List.toFinset_card_of_nodup hwf.nodup, List.length_map]
  exact hwf.count_eq

/-- What `dict_each` hands to a callback that never stops it. -/
def Dict.visits (d : Dict α) : List (Bytes × α) := d.entries.map fun e => (e.key, e.val)

/-- The visits are the graph of the map, each key once. -/
theorem DictRel.visits_spec {d : Dict α} {m : Bytes → Option α} (h : DictRel d m) :
    (d.visits.map Prod.fst).Nodup ∧ ∀ key val, (key, val) ∈ d.visits ↔ m key = some val := by
  obtain ⟨hwf, rfl⟩ := h
  constructor
  · rw [Dict.visits, List.map_map]
    exact hwf.nodup
  · intro key val
    rw [dictGet_eq_some_iff hwf, Dict.visits, List.mem_map]
    constructor
    · rintro ⟨e, he, heq⟩
      obtain ⟨rfl, rfl⟩ := Prod.mk.inj heq
      exact he
    · exact fun hmem => ⟨_, hmem, rfl⟩

/-- **The table is a finite map.** After any sequence of calls on a fresh table: the
answers are those of the partial function; `dict_size` is the number of present keys;
`dict_each` with a callback that always returns true runs it once on every present key
with its current value; and the size is a power of two of at least 16, every entry lies
in the bucket of its hash, no two entries have equal keys, and the load is bounded. -/
theorem dict_refines_map (ops : List (DictOp α)) :
    let d := (run DictOp.onDict dictNew ops).1
    let m := (run DictOp.onMap (fun _ => none) ops).1
    (run DictOp.onDict dictNew ops).2 = (run DictOp.onMap (fun _ => none) ops).2 ∧
      dictGet d = m ∧
      dictSize d = {key | m key ≠ none}.ncard ∧
      (∃ visits : List (Bytes × α), (visits.map Prod.fst).Nodup ∧
        (∀ key val, (key, val) ∈ visits ↔ m key = some val) ∧
        ∀ (σ : Type) (fn : σ → Bytes → α → σ × Bool), (∀ ud k v, (fn ud k v).2 = true) →
          ∀ ud, dictEach d fn ud = visits.foldl (fun ud kv => (fn ud kv.1 kv.2).1) ud) ∧
      (∃ n, 4 ≤ n ∧ d.size = 2 ^ n) ∧ d.buckets.length = d.size ∧
      (∀ i, ∀ e ∈ d.buckets.getD i [], (dictHash e.key).toNat &&& (d.size - 1) = i) ∧
      (d.entries.map DictEntry.key).Nodup ∧ 4 * d.count ≤ 3 * d.size + 4 := by
  intro d m
  obtain ⟨hrel, hanswers⟩ := run_simulation (R := DictRel)
    (fun op _ _ h => h.step op) (DictRel.fresh (α := α)) ops
  refine ⟨hanswers, hrel.get, hrel.size_eq,
    ⟨d.visits, hrel.visits_spec.1, hrel.visits_spec.2, fun σ fn hfn ud => ?_⟩, hrel.wf.pow,
    hrel.wf.length_eq, hrel.wf.placed, hrel.wf.nodup, hrel.wf.load⟩
  rw [dictEach_of_always d hfn, Dict.visits, List.foldl_map]

end Minired
