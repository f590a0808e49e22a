import Minired.ZSet

/-!
# Values

The four kinds of values, the objects that carry them with a deadline, and the operations
on hashes and lists.

A hash is a table of strings; the objects around its values carry no deadline and are left
out. A list is its sequence of elements, from the head on. `list_range` and the callbacks
that collect a hash fill buffers of a fixed size.
-/

namespace Minired

/-- `Obj`'s union. -/
inductive Value
  | str (s : Bytes)
  | list (l : List Bytes)
  | hash (h : Dict Bytes)
  | zset (z : ZSet)

/-- `ObjType`, with the numbers that the snapshot uses. -/
def Value.type : Value → UInt8
  | .str _ => 0
  | .list _ => 1
  | .hash _ => 2
  | .zset _ => 3

/-- The content of a list. -/
def Value.list? : Value → Option (List Bytes)
  | .list l => some l
  | _ => none

/-- The content of a hash. -/
def Value.hash? : Value → Option (Dict Bytes)
  | .hash h => some h
  | _ => none

/-- The content of a sorted set. -/
def Value.zset? : Value → Option ZSet
  | .zset z => some z
  | _ => none

/-- `Obj`: a deadline of 0 means none. -/
structure Obj where
  value : Value
  expireAtMs : Int64

/-- The constructors of `Obj` set no deadline. -/
def newObj (value : Value) : Obj := ⟨value, 0⟩

/-! ### Hashes -/

/-- `htable_set`. -/
def htableSet (h : Dict Bytes) (field value : Bytes) : Dict Bytes := dictSet h field value

/-- `htable_get`. -/
def htableGet (h : Dict Bytes) (field : Bytes) : Option Bytes := dictGet h field

/-- `htable_del`. -/
def htableDel (h : Dict Bytes) (field : Bytes) : Dict Bytes × Bool := dictDel h field

/-- `htable_exists`. -/
def htableExists (h : Dict Bytes) (field : Bytes) : Bool := (dictGet h field).isSome

/-- `htable_len`. -/
def htableLen (h : Dict Bytes) : ℕ := dictSize h

/-- The callback that copies entries into buffers of `max` places and stops when they are
full: `getall_cb` and `hash_collect_cb`. -/
def collectCb (max : ℕ) (acc : List (Bytes × Bytes)) (key val : Bytes) :
    List (Bytes × Bytes) × Bool :=
  if acc.length ≥ max then (acc, false) else (acc ++ [(key, val)], true)

/-- `htable_getall`. -/
def htableGetall (h : Dict Bytes) (max : ℕ) : List (Bytes × Bytes) :=
  dictEach h (collectCb max) []

/-- The callback collects what there is room for. -/
theorem chainEach_collectCb (max : ℕ) (acc : List (Bytes × Bytes)) (es : List (DictEntry Bytes)) :
    (chainEach (collectCb max) acc es).1 =
      acc ++ (es.map fun e => (e.key, e.val)).take (max - acc.length) := by
  induction es generalizing acc with
  | nil => simp [chainEach]
  | cons e es ih =>
    rw [chainEach, collectCb]
    by_cases hfull : acc.length ≥ max
    · have hzero : max - acc.length = 0 := by omega
      simp [hfull, hzero]
    · obtain ⟨k, hk⟩ : ∃ k, max - acc.length = k + 1 := ⟨max - acc.length - 1, by omega⟩
      have hk' : max - (acc ++ [(e.key, e.val)]).length = k := by
        rw [List.length_append, List.length_singleton]
        omega
      simp only [hfull, if_false]
      rw [ih, hk', hk, List.map_cons, List.take_succ_cons, List.append_assoc]
      rfl

/-- The buffers get the first entries, as many as fit. -/
theorem dictEach_collectCb (h : Dict Bytes) (max : ℕ) :
    dictEach h (collectCb max) [] = (h.entries.map fun e => (e.key, e.val)).take max := by
  rw [dictEach_eq, chainEach_collectCb]
  simp

/-! ### Lists -/

/-- `normalize_index`. -/
def normalizeIndex (index : Int) (len : ℕ) : Int := if index < 0 then (len : Int) + index else index

/-- `list_lpush`. -/
def listLpush (l : List Bytes) (value : Bytes) : List Bytes := value :: l

/-- `list_rpush`. -/
def listRpush (l : List Bytes) (value : Bytes) : List Bytes := l ++ [value]

/-- `list_lpop`. -/
def listLpop (l : List Bytes) : List Bytes × Option Bytes := (l.tail, l.head?)

/-- `list_rpop`. -/
def listRpop (l : List Bytes) : List Bytes × Option Bytes := (l.dropLast, l.getLast?)

/-- `list_index`. -/
def listIndex (l : List Bytes) (index : Int) : Option Bytes :=
  let index := normalizeIndex index l.length
  if index < 0 ∨ index ≥ (l.length : Int) then none else l[index.toNat]?

/-- `list_range`, with the size of the buffer. -/
def listRange (l : List Bytes) (start stop : Int) (maxOut : ℕ) : List Bytes :=
  let start := normalizeIndex start l.length
  let stop := normalizeIndex stop l.length
  let start := if start < 0 then 0 else start
  let stop := if stop ≥ (l.length : Int) then (l.length : Int) - 1 else stop
  if start > stop then []
  else (l.drop start.toNat).take (min (stop - start + 1).toNat maxOut)

/-! ### Deadlines -/

/-- The deadline of the object has passed: the test of `check_expiry`. -/
def Obj.expired (now : Int64) (o : Obj) : Bool :=
  o.expireAtMs ≠ 0 && !decide (now.toInt < o.expireAtMs.toInt)

end Minired
