import Minired.LinkedList
import Minired.Lib.Transducer

/-!
# The doubly linked list is a double-ended queue

The queue is a sequence of values with `listLpush`, `listRpush`, `listLpop` and `listRpop`, which
is also what the commands work with. `LinkedList.Repr` relates the nodes to it.

One lemma for each of `push` and `pop` says that at either end the operation follows no null
pointer, does to the sequence what the queue does, and leaves the nodes linked both ways
(`Repr.push`, `Repr.pop`). The end is a parameter of both, so each is proved once.
`deque_refinement` is the run lemma: what any sequence of operations on a fresh list returns, and
what the chain looks like from its two ends.
-/

namespace Minired

open TwoWay Transducer

/-! ### Fields -/

namespace ListNode

/-- The pointer that was written is read. -/
@[simp] theorem inward_setInward (p : Option Addr) (e : End) (n : ListNode) :
    (setInward p e n).inward e = p := by cases e <;> rfl

/-- Writing the other pointer leaves this one alone. -/
@[simp] theorem inward_setInward_other (p : Option Addr) (e : End) (n : ListNode) :
    (setInward p e.other n).inward e = n.inward e := by cases e <;> rfl

/-- And the other way round. -/
@[simp] theorem inward_other_setInward (p : Option Addr) (e : End) (n : ListNode) :
    (setInward p e n).inward e.other = n.inward e.other := by cases e <;> rfl

/-- Pointers do not touch the value. -/
@[simp] theorem value_setInward (p : Option Addr) (e : End) (n : ListNode) :
    (setInward p e n).value = n.value := by cases e <;> rfl

end ListNode

/-- A new node points nowhere. -/
@[simp] theorem ListNode.inward_new (value : Bytes) (e : End) :
    (newListNode value).inward e = none := by cases e <;> rfl

namespace LinkedList

section Fields

variable (l : LinkedList) (p : Option Addr) (e f : End) (a : Addr) (cell : Option ListNode)
  (value : Bytes) (len : ℕ)

/-- The end that was written is read. -/
@[simp] theorem tip_setTip : (l.setTip p e).tip e = p := by cases e <;> rfl

/-- Writing an end leaves the other one alone. -/
@[simp] theorem tip_other_setTip : (l.setTip p e).tip e.other = l.tip e.other := by
  cases e <;> rfl

/-- And the other way round. -/
@[simp] theorem tip_setTip_other : (l.setTip p e.other).tip e = l.tip e := by cases e <;> rfl

/-- The ends are no cells. -/
@[simp] theorem mem_setTip : (l.setTip p e).mem = l.mem := by cases e <;> rfl

/-- Writing an end allocates nothing. -/
@[simp] theorem brk_setTip : (l.setTip p e).brk = l.brk := by cases e <;> rfl

/-- It does not count. -/
@[simp] theorem len_setTip : (l.setTip p e).len = l.len := by cases e <;> rfl

/-- Writing a cell leaves the ends alone. -/
@[simp] theorem tip_setCell : (l.setCell a cell).tip e = l.tip e := by cases e <;> rfl

/-- It writes that cell. -/
@[simp] theorem mem_setCell : (l.setCell a cell).mem = Function.update l.mem a cell := rfl

/-- It allocates nothing. -/
@[simp] theorem brk_setCell : (l.setCell a cell).brk = l.brk := rfl

/-- It does not count. -/
@[simp] theorem len_setCell : (l.setCell a cell).len = l.len := rfl

/-- A new node is at no end yet. -/
@[simp] theorem tip_alloc : (l.alloc value).tip e = l.tip e := by cases e <;> rfl

/-- It is in the next free cell. -/
@[simp] theorem mem_alloc :
    (l.alloc value).mem = Function.update l.mem l.brk (some (newListNode value)) := rfl

/-- That cell is taken. -/
@[simp] theorem brk_alloc : (l.alloc value).brk = l.brk + 1 := rfl

/-- The node is not counted yet. -/
@[simp] theorem len_alloc : (l.alloc value).len = l.len := rfl

/-- Counting leaves the ends alone. -/
@[simp] theorem tip_setLen : (l.setLen len).tip e = l.tip e := by cases e <;> rfl

/-- It writes no cell. -/
@[simp] theorem mem_setLen : (l.setLen len).mem = l.mem := rfl

/-- It allocates nothing. -/
@[simp] theorem brk_setLen : (l.setLen len).brk = l.brk := rfl

/-- The count that was written is read. -/
@[simp] theorem len_setLen : (l.setLen len).len = len := rfl

end Fields

/-- A write to an allocated node. -/
theorem write_eq {l : LinkedList} {a : Addr} {n : ListNode} (hn : l.mem a = some n)
    (f : ListNode → ListNode) : l.write (some a) f = some (l.setCell a (some (f n))) := by
  rw [write, Option.bind_some, hn]
  rfl

/-- A chain from either end is a chain from the head. -/
theorem chain_of_from {l : LinkedList} {as : List Addr} {e : End}
    (h : Chain (l.link e) (l.link e.other) (l.tip e) (l.tip e.other) (e.order as)) :
    Chain (l.link .front) (l.link .back) l.head l.tail as := by
  cases e with
  | front => exact h
  | back =>
    have hswap := h.swap
    rw [End.order, List.reverse_reverse] at hswap
    exact hswap

/-! ### Push -/

/-- What a push leaves: a new node in front of the chain, with the old first node behind it. -/
structure Pushed (l l' : LinkedList) (e : End) (value : Bytes) : Prop where
  inward : l'.link e l.brk = l.tip e
  outward : l'.link e.other l.brk = none
  linked : ∀ a, a ≠ l.brk → l'.link e a = l.link e a
  back : ∀ a, a ≠ l.brk → l'.link e.other a =
    if l.tip e = some a then some l.brk else l.link e.other a
  value_new : (l'.mem l.brk).map ListNode.value = some value
  value_old : ∀ a, a ≠ l.brk → (l'.mem a).map ListNode.value = (l.mem a).map ListNode.value
  tip : l'.tip e = some l.brk
  tip_other : l'.tip e.other = if l.tip e = none then some l.brk else l.tip e.other
  brk : l'.brk = l.brk + 1
  len : l'.len = l.len + 1

/-- A push goes through when the first node of its end, if there is one, is allocated. -/
theorem push_spec {l : LinkedList} (e : End) (value : Bytes)
    (hlive : ∀ t, l.tip e = some t → (l.mem t).isSome)
    (hfresh : ∀ t, l.tip e = some t → t ≠ l.brk) :
    ∃ l', l.push e value = some l' ∧ Pushed l l' e value := by
  cases htip : l.tip e with
  | none =>
    -- both ends are the new node
    have hrun : l.push e value = some ((((l.alloc value).setTip (some l.brk) e).setTip
        (some l.brk) e.other).setLen (l.len + 1)) := by
      simp [push, htip]
    refine ⟨_, hrun, ?_⟩
    exact {
      inward := by simp [link, htip]
      outward := by simp [link]
      linked := fun a ha => by simp [link, ha]
      back := fun a ha => by simp [link, ha, htip]
      value_new := by simp [newListNode]
      value_old := fun a ha => by simp [ha]
      tip := by simp
      tip_other := by
        have h := tip_setTip ((l.alloc value).setTip (some l.brk) e) (some l.brk) e.other
        simp [h, htip]
      brk := by simp
      len := by simp }
  | some t =>
    obtain ⟨n, hn⟩ := Option.isSome_iff_exists.mp (hlive t htip)
    have ht : t ≠ l.brk := hfresh t htip
    -- the new node points to the first one, and then the first one back to it
    have hwrite : (l.alloc value).write (some l.brk) (ListNode.setInward (some t) e) =
        some ((l.alloc value).setCell l.brk
          (some (ListNode.setInward (some t) e (newListNode value)))) := write_eq (by simp) _
    have hwrite' : ((l.alloc value).setCell l.brk
          (some (ListNode.setInward (some t) e (newListNode value)))).write (some t)
          (ListNode.setInward (some l.brk) e.other) =
        some (((l.alloc value).setCell l.brk
          (some (ListNode.setInward (some t) e (newListNode value)))).setCell t
          (some (ListNode.setInward (some l.brk) e.other n))) := write_eq (by simp [ht, hn]) _
    have hrun : l.push e value = some (((((l.alloc value).setCell l.brk
          (some (ListNode.setInward (some t) e (newListNode value)))).setCell t
          (some (ListNode.setInward (some l.brk) e.other n))).setTip (some l.brk) e).setLen
          (l.len + 1)) := by
      simp [push, htip, hwrite, hwrite']
    refine ⟨_, hrun, ?_⟩
    exact {
      inward := by simp [link, htip, ht.symm]
      outward := by simp [link, ht.symm]
      linked := fun a ha => by
        by_cases hat : a = t
        · simp [link, hat, hn]
        · simp [link, ha, hat]
      back := fun a ha => by
        by_cases hat : a = t
        · simp [link, hat, htip]
        · simp [link, ha, hat, htip, Ne.symm hat]
      value_new := by simp [newListNode, ht.symm]
      value_old := fun a ha => by
        by_cases hat : a = t
        · simp [hat, hn]
        · simp [ha, hat]
      tip := by simp
      tip_other := by simp [htip]
      brk := by simp
      len := by simp }

/-- A cell is taken when its value is there. -/
theorem isSome_mem_iff {l l' : LinkedList} {a : Addr}
    (h : (l'.mem a).map ListNode.value = (l.mem a).map ListNode.value) :
    (l'.mem a).isSome ↔ (l.mem a).isSome := by
  rw [← Option.isSome_map, h, Option.isSome_map]

/-- **A push keeps the nodes linked**, with one more at its end. -/
theorem Pushed.repr {l l' : LinkedList} {e : End} {value : Bytes} (hp : Pushed l l' e value)
    {as : List Addr} {xs : List Bytes} (h : l.Repr as xs) :
    l'.Repr (e.put l.brk as) (e.put value xs) := by
  have hnew : l.brk ∉ as := fun hmem => lt_irrefl _ (h.fresh _ hmem)
  have hne : ∀ a ∈ as, a ≠ l.brk := fun a ha heq => hnew (heq ▸ ha)
  refine ⟨chain_of_from (e := e) ?_, fun a => ?_, fun a ha => ?_, ?_, ?_⟩
  · -- seen from the end where it is pushed, the new node is the first one
    rw [End.order_put, hp.tip, hp.tip_other]
    have hne' : ∀ a ∈ e.order as, a ≠ l.brk := fun a ha => hne a ((e.mem_order ..).mp ha)
    have hhead : ∀ a, l.tip e = some a → a ≠ l.brk := fun a ha => by
      refine hne' a (List.mem_of_mem_head? ?_)
      rw [← (h.chainFrom e).forth.pointer_eq]
      exact ha
    refine (h.chainFrom e).push (fun hmem => hne' _ hmem rfl) hp.inward hp.outward
      (fun a ha => ?_) (fun a ha => hp.linked a (hne' a ha)) fun a ha hat => ?_
    · rw [hp.back a (hhead a ha), if_pos ha]
    · rw [hp.back a (hne' a ha), if_neg hat]
  · -- the live addresses are those of the nodes
    rw [End.mem_put]
    by_cases ha : a = l.brk
    · refine iff_of_true ?_ (.inl ha)
      rw [ha, ← Option.isSome_map, hp.value_new]
      rfl
    · rw [isSome_mem_iff (hp.value_old a ha), h.live, or_iff_right ha]
  · rw [hp.brk]
    rcases (e.mem_put ..).mp ha with rfl | ha
    · exact Nat.lt_succ_self _
    · exact (h.fresh a ha).trans (Nat.lt_succ_self _)
  · rw [End.map_put, End.map_put, hp.value_new, ← h.values]
    exact congrArg _ (List.map_congr_left fun a ha => hp.value_old a (hne a ha))
  · rw [hp.len, End.length_put, h.len_eq]

/-! ### Pop -/

/-- What a pop leaves: the chain without its first node `a`, which is freed. -/
structure Popped (l l' : LinkedList) (e : End) (a : Addr) : Prop where
  linked : ∀ b, b ≠ a → l'.link e b = l.link e b
  back : ∀ b, b ≠ a → l'.link e.other b =
    if l.link e a = some b then none else l.link e.other b
  freed : l'.mem a = none
  value_old : ∀ b, b ≠ a → (l'.mem b).map ListNode.value = (l.mem b).map ListNode.value
  tip : l'.tip e = l.link e a
  tip_other : l'.tip e.other = if l.link e a = none then none else l.tip e.other
  brk : l'.brk = l.brk
  len : l'.len = l.len - 1

/-- A pop goes through when the first node of its end and the one behind it, if there is one, are
allocated. -/
theorem pop_spec {l : LinkedList} {e : End} {a : Addr} {n : ListNode} (htip : l.tip e = some a)
    (hn : l.mem a = some n) (hlive : ∀ b, l.link e a = some b → (l.mem b).isSome ∧ b ≠ a) :
    ∃ l', l.pop e = some (l', some n.value) ∧ Popped l l' e a := by
  have hlink : l.link e a = n.inward e := by
    rw [link, hn]
    rfl
  have hderef : l.deref (some a) = some n := hn
  cases hnext : n.inward e with
  | none =>
    -- it was the only node
    have hrun : l.pop e = some (((((l.setTip none e).setTip none e.other).setCell a none).setLen
        (l.len - 1)), some n.value) := by
      simp [pop, htip, hderef, hnext]
    refine ⟨_, hrun, ?_⟩
    rw [hnext] at hlink
    exact {
      linked := fun b hb => by simp [link, hb]
      back := fun b hb => by
        rw [hlink, if_neg (Option.some_ne_none b).symm]
        simp [link, hb]
      freed := by simp
      value_old := fun b hb => by simp [hb]
      tip := by simp [hlink]
      tip_other := by
        have h := tip_setTip (l.setTip none e) none e.other
        simp [h, hlink]
      brk := by simp
      len := by simp }
  | some b =>
    rw [hnext] at hlink
    obtain ⟨hb, hne⟩ := hlive b hlink
    obtain ⟨m, hm⟩ := Option.isSome_iff_exists.mp hb
    -- the next node becomes the first, and points back to null
    have hwrite : (l.setTip (some b) e).write (some b) (ListNode.setInward none e.other) =
        some ((l.setTip (some b) e).setCell b (some (ListNode.setInward none e.other m))) :=
      write_eq (by simp [hm]) _
    have hrun : l.pop e = some (((((l.setTip (some b) e).setCell b
        (some (ListNode.setInward none e.other m))).setCell a none).setLen (l.len - 1)),
        some n.value) := by
      simp [pop, htip, hderef, hnext, hwrite]
    refine ⟨_, hrun, ?_⟩
    exact {
      linked := fun c hc => by
        by_cases hcb : c = b
        · simp [link, hcb, hne, hm]
        · simp [link, hc, hcb]
      back := fun c hc => by
        by_cases hcb : c = b
        · rw [hlink, hcb, if_pos rfl]
          simp [link, hne]
        · rw [hlink, if_neg fun heq => hcb (Option.some.inj heq).symm]
          simp [link, hc, hcb]
      freed := by simp
      value_old := fun c hc => by
        by_cases hcb : c = b
        · simp [hcb, hne, hm]
        · simp [hc, hcb]
      tip := by simp [hlink]
      tip_other := by simp [hlink]
      brk := by simp
      len := by simp }

/-- **A pop keeps the nodes linked**, with one less at its end. -/
theorem Popped.repr {l l' : LinkedList} {e : End} {a : Addr} (hp : Popped l l' e a)
    {as : List Addr} {xs : List Bytes} (h : l.Repr as xs) (htip : l.tip e = some a) :
    l'.Repr (e.rest as) (e.rest xs) := by
  -- the popped node is the first one, from the end
  have hchain := h.chainFrom e
  obtain ⟨cs, hcs⟩ : ∃ cs, e.order as = a :: cs :=
    List.head?_eq_some_iff.mp (hchain.forth.pointer_eq.symm.trans htip)
  rw [hcs] at hchain
  have hrest : e.order (e.rest as) = cs := by rw [End.order_rest, hcs, List.tail_cons]
  have hgone : ∀ b ∈ cs, b ≠ a := fun b hb heq =>
    (List.nodup_cons.mp hchain.nodup).1 (heq ▸ hb)
  have hmem : ∀ b, b ∈ e.rest as ↔ b ∈ cs := fun b => by rw [← End.mem_order e, hrest]
  have hmem_as : ∀ b, b ∈ as ↔ b = a ∨ b ∈ cs := fun b => by
    rw [← End.mem_order e, hcs, List.mem_cons]
  refine ⟨chain_of_from (e := e) ?_, fun b => ?_, fun b hb => ?_, ?_, ?_⟩
  · rw [hrest, hp.tip, hp.tip_other]
    refine hchain.pop (fun b hb => hp.linked b (hgone b hb)) (fun b hb => ?_) fun b hb hne => ?_
    · have hbcs : b ∈ cs := List.mem_of_mem_head? (hchain.forth.2.pointer_eq ▸ hb)
      rw [hp.back b (hgone b hbcs), if_pos hb]
    · rw [hp.back b (hgone b hb), if_neg hne]
  · rw [hmem]
    by_cases hb : b = a
    · refine iff_of_false ?_ fun hbcs => hgone b hbcs hb
      rw [hb, hp.freed]
      exact Bool.false_ne_true
    · rw [isSome_mem_iff (hp.value_old b hb), h.live, hmem_as, or_iff_right hb]
  · rw [hp.brk]
    exact h.fresh b ((hmem_as b).mpr (.inr ((hmem b).mp hb)))
  · rw [End.map_rest e some, ← h.values, ← End.map_rest]
    exact List.map_congr_left fun b hb => hp.value_old b (hgone b ((hmem b).mp hb))
  · rw [hp.len, End.length_rest, h.len_eq]

/-! ### The operations on a chain -/

namespace Repr

variable {l : LinkedList} {as : List Addr} {xs : List Bytes}

/-- The first node, from either end, is there. -/
theorem tip_mem (h : l.Repr as xs) {e : End} {a : Addr} (htip : l.tip e = some a) : a ∈ as := by
  refine (e.mem_order a as).mp (List.mem_of_mem_head? ?_)
  rw [← (h.chainFrom e).forth.pointer_eq]
  exact htip

/-- **A push**, at either end. -/
theorem push (h : l.Repr as xs) (e : End) (value : Bytes) :
    ∃ l' as', l.push e value = some l' ∧ l'.Repr as' (e.put value xs) := by
  obtain ⟨l', hrun, hpushed⟩ := push_spec (l := l) e value
    (fun t ht => (h.live t).mpr (h.tip_mem ht)) fun t ht => (h.fresh t (h.tip_mem ht)).ne
  exact ⟨l', _, hrun, hpushed.repr h⟩

/-- **A pop**, at either end: the first value, and the rest stays. -/
theorem pop (h : l.Repr as xs) (e : End) :
    ∃ l' as', l.pop e = some (l', (e.order xs).head?) ∧ l'.Repr as' (e.rest xs) := by
  have hchain := h.chainFrom e
  cases htip : l.tip e with
  | none =>
    -- there is nothing to pop
    have hempty : xs = [] := by
      have has := hchain.head_eq_none.mp htip
      have hlen : (e.order as).length = 0 := congrArg List.length has
      rw [End.length_order, h.length_eq] at hlen
      exact List.length_eq_zero_iff.mp hlen
    subst hempty
    refine ⟨l, as, ?_, ?_⟩
    · rw [LinkedList.pop, htip]
      cases e <;> rfl
    · cases e <;> exact h
  | some a =>
    obtain ⟨n, hn⟩ := Option.isSome_iff_exists.mp ((h.live a).mpr (h.tip_mem htip))
    obtain ⟨cs, hcs⟩ : ∃ cs, e.order as = a :: cs :=
      List.head?_eq_some_iff.mp (hchain.forth.pointer_eq.symm.trans htip)
    rw [hcs] at hchain
    -- the node behind the first is another one
    obtain ⟨l', hrun, hpopped⟩ := pop_spec htip hn fun b hb => by
      have hbcs : b ∈ cs := List.mem_of_mem_head? (hchain.forth.2.pointer_eq ▸ hb)
      have hbas : b ∈ as := (e.mem_order b as).mp (hcs ▸ List.mem_cons_of_mem a hbcs)
      exact ⟨(h.live b).mpr hbas, fun heq => (List.nodup_cons.mp hchain.nodup).1 (heq ▸ hbcs)⟩
    refine ⟨l', _, ?_, hpopped.repr h htip⟩
    -- its value is the first one
    have hvalue : (e.order xs).head? = some n.value := by
      have hhead := congrArg List.head? ((e.map_order ..).trans (congrArg e.order h.values))
      rw [hcs, ← End.map_order, List.map_cons, List.head?_cons, List.head?_map, hn] at hhead
      cases hxs : (e.order xs).head? with
      | none =>
        rw [hxs] at hhead
        cases hhead
      | some x =>
        rw [hxs] at hhead
        exact (Option.some.inj hhead).symm
    rw [hvalue]
    exact hrun

end Repr

end LinkedList

/-! ### Runs -/

/-- An operation on a list. -/
inductive ListOp
  | lpush (value : Bytes)
  | rpush (value : Bytes)
  | lpop
  | rpop

/-- The operation on the nodes, and what it returns. There is no list any more after an operation
that follows a null pointer. -/
def ListOp.onNodes (s : Option LinkedList) : ListOp → Option LinkedList × Option Bytes
  | .lpush value => (s.bind (·.lpush value), none)
  | .rpush value => (s.bind (·.rpush value), none)
  | .lpop => ((s.bind LinkedList.lpop).map Prod.fst, (s.bind LinkedList.lpop).bind Prod.snd)
  | .rpop => ((s.bind LinkedList.rpop).map Prod.fst, (s.bind LinkedList.rpop).bind Prod.snd)

/-- The operation on a double-ended queue. -/
def ListOp.onQueue (xs : List Bytes) : ListOp → List Bytes × Option Bytes
  | .lpush value => (listLpush xs value, none)
  | .rpush value => (listRpush xs value, none)
  | .lpop => listLpop xs
  | .rpop => listRpop xs

/-- What the structure shows of a queue. The nodes visited from the head by `next` are those
visited from the tail by `prev`, in the opposite order. -/
structure LinkedList.Shows (l : LinkedList) (xs : List Bytes) : Prop where
  nodes : ∃ as, Follows (l.link .front) l.head as ∧ Follows (l.link .back) l.tail as.reverse ∧
    as.map (fun a => (l.mem a).map ListNode.value) = xs.map some ∧
    as.reverse.map (fun a => (l.mem a).map ListNode.value) = xs.reverse.map some
  head_null : l.head = none ↔ l.tail = none
  tail_null : l.tail = none ↔ l.len = 0
  head_prev : ∀ a, l.head = some a → l.link .back a = none
  tail_next : ∀ a, l.tail = some a → l.link .front a = none
  len_eq : l.len = xs.length
  lpop_null : (∃ l', l.lpop = some (l', none)) ↔ xs = []
  rpop_null : (∃ l', l.rpop = some (l', none)) ↔ xs = []

/-- The list is there, and has the values of the queue. -/
def ListRel (s : Option LinkedList) (xs : List Bytes) : Prop := ∃ l as, s = some l ∧ l.Repr as xs

/-- One operation keeps the relation, and returns what the queue returns. -/
theorem ListRel.step {s : Option LinkedList} {xs : List Bytes} (h : ListRel s xs) (op : ListOp) :
    ListRel (op.onNodes s).1 (op.onQueue xs).1 ∧ (op.onNodes s).2 = (op.onQueue xs).2 := by
  obtain ⟨l, as, rfl, hrepr⟩ := h
  cases op with
  | lpush value =>
    obtain ⟨l', as', hrun, hrepr'⟩ := hrepr.push .front value
    exact ⟨⟨l', as', hrun, hrepr'⟩, rfl⟩
  | rpush value =>
    obtain ⟨l', as', hrun, hrepr'⟩ := hrepr.push .back value
    exact ⟨⟨l', as', hrun, hrepr'⟩, rfl⟩
  | lpop =>
    obtain ⟨l', as', hrun, hrepr'⟩ := hrepr.pop .front
    have hpop : (some l).bind LinkedList.lpop = some (l', xs.head?) := hrun
    refine ⟨⟨l', as', ?_, hrepr'⟩, ?_⟩
    · rw [ListOp.onNodes, hpop]
      rfl
    · rw [ListOp.onNodes, hpop]
      rfl
  | rpop =>
    obtain ⟨l', as', hrun, hrepr'⟩ := hrepr.pop .back
    -- the front of the reversed list is the back
    have hpop : (some l).bind LinkedList.rpop = some (l', xs.getLast?) := by
      rw [← List.head?_reverse]
      exact hrun
    refine ⟨⟨l', as', ?_, hrepr'⟩, ?_⟩
    · rw [ListOp.onNodes, hpop]
      rfl
    · rw [ListOp.onNodes, hpop]
      rfl

/-- A pop returns null exactly when there is nothing. -/
theorem LinkedList.Repr.pop_null {l : LinkedList} {as : List Addr} {xs : List Bytes}
    (h : l.Repr as xs) (e : End) : (∃ l', l.pop e = some (l', none)) ↔ xs = [] := by
  obtain ⟨l', as', hrun, -⟩ := h.pop e
  rw [hrun]
  constructor
  · rintro ⟨l'', heq⟩
    have hnone : (e.order xs).head? = none := (Prod.mk.inj (Option.some.inj heq)).2
    have hlen := congrArg List.length (List.head?_eq_none_iff.mp hnone)
    rw [End.length_order] at hlen
    exact List.length_eq_zero_iff.mp hlen
  · rintro rfl
    refine ⟨l', ?_⟩
    cases e <;> rfl

/-- The representation shows the queue. -/
theorem LinkedList.Repr.shows {l : LinkedList} {as : List Addr} {xs : List Bytes}
    (h : l.Repr as xs) : l.Shows xs where
  nodes := by
    refine ⟨as, h.chain.forth, h.chain.back, h.values, ?_⟩
    rw [List.map_reverse, h.values, List.map_reverse]
  head_null := h.chain.head_eq_none.trans h.chain.tail_eq_none.symm
  tail_null := by
    rw [h.chain.tail_eq_none, h.len_eq, ← h.length_eq, List.length_eq_zero_iff]
  head_prev _ ha := h.chain.outer ha
  tail_next _ ha := h.chain.swap.outer ha
  len_eq := h.len_eq
  lpop_null := h.pop_null .front
  rpop_null := h.pop_null .back

/-- **The doubly linked list refines a double-ended queue.** Any sequence of operations on a fresh
list follows no null pointer and returns what the queue returns, and the structure it leaves shows
the queue: its content from the head by `next`, the reverse of it from the tail by `prev`, and
its length. -/
theorem deque_refinement (ops : List ListOp) :
    (run ListOp.onNodes (some .new) ops).2 = (run ListOp.onQueue [] ops).2 ∧
      ∃ l, (run ListOp.onNodes (some .new) ops).1 = some l ∧
        l.Shows (run ListOp.onQueue [] ops).1 := by
  obtain ⟨⟨l, as, hl, hrepr⟩, hanswers⟩ := run_simulation (R := ListRel)
    (fun op _ _ h => h.step op) ⟨.new, [], rfl, LinkedList.repr_new⟩ ops
  exact ⟨hanswers, l, hl, hrepr.shows⟩

end Minired
