import Minired.Object
import Minired.Lib.TwoWay

/-!
# The doubly linked list

`list.cpp`, pointer by pointer. A node lives at an address of the heap `mem`; `new` takes the next
address that was never used and `delete` empties the cell. Following a null pointer, or one whose
node was deleted, is undefined in C++: an operation that does so has no result here, `none`.

The operations at the tail are those at the head with `prev` and `next` exchanged, so there is one
`push` and one `pop` with the end as a parameter, and `list_lpush`, `list_rpush`, `list_lpop` and
`list_rpop` are their instances. `LinkedList.Repr` says which addresses and values a list has; it
looks the same from both ends (`LinkedList.Repr.chainFrom`).
-/

namespace Minired

open TwoWay

/-- `ListNode`. -/
structure ListNode where
  value : Bytes
  prev : Option Addr
  next : Option Addr

/-- The constructor `ListNode::ListNode`. -/
def newListNode (value : Bytes) : ListNode := ⟨value, none, none⟩

/-- `List`, and the heap that its nodes live in. -/
structure LinkedList where
  mem : Addr → Option ListNode
  /-- The next address `new` will use. -/
  brk : Addr
  head : Option Addr
  tail : Option Addr
  len : ℕ

/-- The constructor `List::List`. -/
def LinkedList.new : LinkedList := ⟨fun _ => none, 0, none, none, 0⟩

/-- The end of a list at which an operation works. -/
inductive End
  | front
  | back

/-- The other end. -/
def End.other : End → End
  | .front => .back
  | .back => .front

/-- What the end of a list is in the order of its operation: the content, or its reverse. -/
def End.order {α : Type} : End → List α → List α
  | .front, as => as
  | .back, as => as.reverse

/-- Behind the other end is this one. -/
@[simp] theorem End.other_other (e : End) : e.other.other = e := by cases e <;> rfl

/-- A value put at an end of a sequence. -/
def End.put {α : Type} : End → α → List α → List α
  | .front, x, xs => x :: xs
  | .back, x, xs => xs ++ [x]

/-- Seen from an end, what is put there comes first. -/
theorem End.order_put {α : Type} (e : End) (x : α) (xs : List α) :
    e.order (e.put x xs) = x :: e.order xs := by
  cases e with
  | front => rfl
  | back => exact List.reverse_concat ..

/-- What is put there is a member. -/
theorem End.mem_put {α : Type} (e : End) (x y : α) (xs : List α) :
    y ∈ e.put x xs ↔ y = x ∨ y ∈ xs := by
  cases e with
  | front => exact List.mem_cons
  | back => rw [put, List.mem_append, List.mem_singleton, or_comm]

/-- The members are the same from both ends. -/
theorem End.mem_order {α : Type} (e : End) (y : α) (xs : List α) : y ∈ e.order xs ↔ y ∈ xs := by
  cases e with
  | front => rfl
  | back => exact List.mem_reverse

/-- So is the length. -/
theorem End.length_order {α : Type} (e : End) (xs : List α) : (e.order xs).length = xs.length := by
  cases e with
  | front => rfl
  | back => exact List.length_reverse

/-- Putting goes along with a map. -/
theorem End.map_put {α β : Type} (e : End) (f : α → β) (x : α) (xs : List α) :
    (e.put x xs).map f = e.put (f x) (xs.map f) := by
  cases e with
  | front => rfl
  | back => exact List.map_append

/-- What is put there makes the list longer by one. -/
theorem End.length_put {α : Type} (e : End) (x : α) (xs : List α) :
    (e.put x xs).length = xs.length + 1 := by
  cases e with
  | front => rfl
  | back => exact List.length_append

/-- A sequence without its first value, from the end. -/
def End.rest {α : Type} : End → List α → List α
  | .front, xs => xs.tail
  | .back, xs => xs.dropLast

/-- Seen from an end, the rest is the tail. -/
theorem End.order_rest {α : Type} (e : End) (xs : List α) :
    e.order (e.rest xs) = (e.order xs).tail := by
  cases e with
  | front => rfl
  | back => exact List.tail_reverse.symm

/-- Turning round goes along with a map. -/
theorem End.map_order {α β : Type} (e : End) (f : α → β) (xs : List α) :
    (e.order xs).map f = e.order (xs.map f) := by
  cases e with
  | front => rfl
  | back => exact List.map_reverse

/-- So does taking the rest. -/
theorem End.map_rest {α β : Type} (e : End) (f : α → β) (xs : List α) :
    (e.rest xs).map f = e.rest (xs.map f) := by
  cases e with
  | front => exact List.map_tail
  | back => exact List.map_dropLast

/-- The rest is shorter by one. -/
theorem End.length_rest {α : Type} (e : End) (xs : List α) :
    (e.rest xs).length = xs.length - 1 := by
  cases e with
  | front => exact List.length_tail
  | back => exact List.length_dropLast

/-- The pointer that leads away from the end: `next` from the head, `prev` from the tail. -/
def ListNode.inward : End → ListNode → Option Addr
  | .front, n => n.next
  | .back, n => n.prev

/-- The same pointer with another value. -/
def ListNode.setInward (p : Option Addr) : End → ListNode → ListNode
  | .front, n => { n with next := p }
  | .back, n => { n with prev := p }

namespace LinkedList

/-- `head` or `tail`. -/
def tip (l : LinkedList) : End → Option Addr
  | .front => l.head
  | .back => l.tail

/-- `l->head = p` or `l->tail = p`. -/
def setTip (l : LinkedList) (p : Option Addr) : End → LinkedList
  | .front => { l with head := p }
  | .back => { l with tail := p }

/-- `*p`. -/
def deref (l : LinkedList) (p : Option Addr) : Option ListNode := p.bind l.mem

/-- The heap with another cell. -/
def setCell (l : LinkedList) (a : Addr) (cell : Option ListNode) : LinkedList :=
  { l with mem := Function.update l.mem a cell }

/-- A write to `*p`. -/
def write (l : LinkedList) (p : Option Addr) (f : ListNode → ListNode) : Option LinkedList :=
  p.bind fun a => (l.mem a).map fun n => l.setCell a (some (f n))

/-- `new ListNode(value)`. -/
def alloc (l : LinkedList) (value : Bytes) : LinkedList :=
  { l.setCell l.brk (some (newListNode value)) with brk := l.brk + 1 }

/-- `l->len = len`. -/
def setLen (l : LinkedList) (len : ℕ) : LinkedList := { l with len := len }

/-- `list_lpush` and `list_rpush`, by the end. -/
def push (e : End) (l : LinkedList) (value : Bytes) : Option LinkedList := do
  let n := l.brk
  let l := l.alloc value
  let l ← match l.tip e with
    | none => some ((l.setTip (some n) e).setTip (some n) e.other)
    | some _ => do
      let l ← l.write (some n) (ListNode.setInward (l.tip e) e)
      let l ← l.write (l.tip e) (ListNode.setInward (some n) e.other)
      some (l.setTip (some n) e)
  some (l.setLen (l.len + 1))

/-- `list_lpop` and `list_rpop`, by the end. -/
def pop (e : End) (l : LinkedList) : Option (LinkedList × Option Bytes) :=
  match l.tip e with
  | none => some (l, none)
  | some n => do
    let node ← l.deref (some n)
    let l := l.setTip (node.inward e) e
    let l ← match l.tip e with
      | some _ => l.write (l.tip e) (ListNode.setInward none e.other)
      | none => some (l.setTip none e.other)
    -- the node is deleted
    some ((l.setCell n none).setLen (l.len - 1), some node.value)

/-- `list_lpush`. -/
def lpush : LinkedList → Bytes → Option LinkedList := push .front

/-- `list_rpush`. -/
def rpush : LinkedList → Bytes → Option LinkedList := push .back

/-- `list_lpop`. -/
def lpop : LinkedList → Option (LinkedList × Option Bytes) := pop .front

/-- `list_rpop`. -/
def rpop : LinkedList → Option (LinkedList × Option Bytes) := pop .back

/-- `k` times `n = n->next`, or `n = n->prev`. -/
def walk (l : LinkedList) (e : End) : ℕ → Option Addr → Option (Option Addr)
  | 0, n => some n
  | k + 1, n => do
    let node ← l.deref n
    l.walk e k (node.inward e)

/-- The walk of `list_index`, from the end that is nearer. -/
def seek (l : LinkedList) (index : Int) : Option (Option Addr) :=
  if index < (l.len : Int) / 2 then l.walk .front index.toNat l.head
  else l.walk .back ((l.len : Int) - 1 - index).toNat l.tail

/-- `list_index`. -/
def index (l : LinkedList) (index : Int) : Option (Option Bytes) :=
  let index := normalizeIndex index l.len
  if index < 0 ∨ index ≥ (l.len : Int) then some none
  else do
    let n ← l.seek index
    let node ← l.deref n
    some (some node.value)

/-- The loop `out[count++] = n->value; n = n->next`, `k` times. -/
def copy (l : LinkedList) : ℕ → Option Addr → Option (List Bytes)
  | 0, _ => some []
  | k + 1, n => do
    let node ← l.deref n
    let out ← l.copy k node.next
    some (node.value :: out)

/-- `list_range`: what it writes to `out`, which has `maxOut` places. -/
def range (l : LinkedList) (start stop : Int) (maxOut : ℕ) : Option (List Bytes) :=
  let start := normalizeIndex start l.len
  let stop := normalizeIndex stop l.len
  let start := if start < 0 then 0 else start
  let stop := if stop ≥ (l.len : Int) then (l.len : Int) - 1 else stop
  if start > stop then some []
  else do
    let n ← l.walk .front start.toNat l.head
    l.copy (min (stop - start + 1).toNat maxOut) n

/-! ### What a list looks like -/

/-- What the inward pointers hold, as a function of the address. -/
def link (l : LinkedList) (e : End) (a : Addr) : Option Addr := (l.mem a).bind (·.inward e)

/-- The nodes of the list are at the addresses `as`, and have the values `xs`. -/
structure Repr (l : LinkedList) (as : List Addr) (xs : List Bytes) : Prop where
  chain : Chain (l.link .front) (l.link .back) l.head l.tail as
  /-- No other node is allocated. -/
  live : ∀ a, (l.mem a).isSome ↔ a ∈ as
  fresh : ∀ a ∈ as, a < l.brk
  values : as.map (fun a => (l.mem a).map ListNode.value) = xs.map some
  len_eq : l.len = xs.length

/-- A new list has no nodes. -/
theorem repr_new : LinkedList.new.Repr [] [] where
  chain := ⟨rfl, rfl, List.nodup_nil⟩
  live := fun _ => iff_of_false Bool.false_ne_true List.not_mem_nil
  fresh := fun _ ha => absurd ha List.not_mem_nil
  values := rfl
  len_eq := rfl

namespace Repr

variable {l : LinkedList} {as : List Addr} {xs : List Bytes}

/-- There are as many nodes as values. -/
theorem length_eq (h : l.Repr as xs) : as.length = xs.length := by
  simpa using congrArg List.length h.values

/-- The list, seen from either end. -/
theorem chainFrom (h : l.Repr as xs) (e : End) :
    Chain (l.link e) (l.link e.other) (l.tip e) (l.tip e.other) (e.order as) := by
  cases e with
  | front => exact h.chain
  | back => exact h.chain.swap

/-- The node at a place of the list. -/
theorem node (h : l.Repr as xs) {i : ℕ} {a : Addr} (ha : as[i]? = some a) :
    ∃ n, l.mem a = some n ∧ xs[i]? = some n.value := by
  obtain ⟨n, hn⟩ := Option.isSome_iff_exists.mp ((h.live a).mpr (List.mem_of_getElem? ha))
  refine ⟨n, hn, ?_⟩
  have hval := congrArg (·[i]?) h.values
  simp only [List.getElem?_map, ha, hn, Option.map_some] at hval
  cases hx : xs[i]? with
  | none =>
    rw [hx] at hval
    cases hval
  | some x =>
    rw [hx] at hval
    exact (Option.some.inj hval).symm

end Repr

end LinkedList

end Minired
