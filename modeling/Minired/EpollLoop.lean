import Minired.ClientSimulation

/-!
# The build with `epoll`

A descriptor is registered with an interest in events, `EPOLLIN` alone or with `EPOLLOUT`, which
`epoll_ctl` adds, changes and deletes. `epoll_wait` returns at most one event a descriptor, and only
for descriptors that are registered. **`write_interest`** is what the loop over any `EventQueue`
keeps, said of this one.
-/

namespace Minired

/-- The descriptors that are open, and the interest of those that are registered: whether it has
`EPOLLOUT`. -/
structure Epoll where
  poll : ℕ → Option Bool
  isOpen : ℕ → Bool

namespace Epoll

/-- `epoll_ctl` with `EPOLL_CTL_ADD`, for reading. It fails if the descriptor is registered. -/
def ctlAdd (k : Epoll) (fd : ℕ) : Epoll :=
  if (k.poll fd).isSome then k else { k with poll := Function.update k.poll fd (some false) }

/-- `epoll_ctl` with `EPOLL_CTL_MOD`. It fails if the descriptor is not registered. -/
def ctlMod (k : Epoll) (fd : ℕ) (wantWrite : Bool) : Epoll :=
  if (k.poll fd).isSome then { k with poll := Function.update k.poll fd (some wantWrite) } else k

/-- `epoll_ctl` with `EPOLL_CTL_DEL`. -/
def ctlDel (k : Epoll) (fd : ℕ) : Epoll := { k with poll := Function.update k.poll fd none }

/-- What `epoll_wait` may return. -/
structure Reports (k : Epoll) (batch : List PollEvent) : Prop where
  registered : ∀ e ∈ batch, (k.poll e.fd).isSome = true
  distinct : (batch.map PollEvent.fd).Nodup

/-- `epoll`, as `server.cpp` uses it. -/
instance eventQueue : EventQueue Epoll where
  create isOpen := ⟨fun _ => none, isOpen⟩
  isOpen := Epoll.isOpen
  opened k fd := { k with isOpen := Function.update k.isOpen fd true }
  closed k fd := ⟨Function.update k.poll fd none, Function.update k.isOpen fd false⟩
  eventAddRead := ctlAdd
  eventSetWrite := ctlMod
  eventDel := ctlDel
  Reports := Reports
  interest := poll

/-- A descriptor that is not registered is registered for reading. -/
theorem ctlAdd_of_none {k : Epoll} {fd : ℕ} (h : k.poll fd = none) :
    k.ctlAdd fd = { k with poll := Function.update k.poll fd (some false) } := by
  refine if_neg ?_
  rw [h]
  decide

/-- A descriptor that is registered gets another interest. -/
theorem ctlMod_of_some {k : Epoll} {fd : ℕ} {w : Bool} (h : k.poll fd = some w)
    (wantWrite : Bool) :
    k.ctlMod fd wantWrite = { k with poll := Function.update k.poll fd (some wantWrite) } :=
  if_pos (by rw [h]; rfl)

/-- No call of `epoll_ctl` opens or closes a descriptor. -/
theorem isOpen_ctlAdd (k : Epoll) (fd : ℕ) : (k.ctlAdd fd).isOpen = k.isOpen := by
  unfold ctlAdd
  split_ifs
  · rfl
  · rfl

/-- What the loop relies on holds of `epoll_ctl` and of closing a descriptor. -/
instance lawful : LawfulEventQueue Epoll where
  interest_create _ := rfl
  interest_add {k fd} h := by
    -- `accept` has opened the descriptor, and nothing else
    show ((_ : Epoll).ctlAdd fd).poll = Function.update k.poll fd (some false)
    rw [ctlAdd_of_none (k := EventQueue.opened k fd) h]
    rfl
  isOpen_add k fd := isOpen_ctlAdd (EventQueue.opened k fd) fd
  interest_set {k fd w} h wantWrite := by
    show (k.ctlMod fd wantWrite).poll = _
    rw [ctlMod_of_some h]
    rfl
  isOpen_set k fd wantWrite := by
    show (k.ctlMod fd wantWrite).isOpen = k.isOpen
    unfold ctlMod
    split_ifs
    · rfl
    · rfl
  set_self {k fd w} h := by
    -- the same interest once more
    show k.ctlMod fd w = k
    have hsame : Function.update k.poll fd (some w) = k.poll := by
      rw [← show k.poll fd = some w from h, Function.update_eq_self]
    rw [ctlMod_of_some h, hsame]
  interest_close k fd := Function.update_idem ..
  isOpen_close _ _ := rfl
  del_closed {k fd} _ h := by
    show k.ctlDel fd = k
    have hsame : Function.update k.poll fd none = k.poll := by
      rw [← show k.poll fd = none from h, Function.update_eq_self]
    rw [ctlDel, hsame]
  reports_read {_ _} h {e} he _ := h.registered e he

end Epoll

variable (libc : Libc) (clock : ℕ → Int64) {p : Process Epoll}

/-- **Write interest.** Whenever a run comes to `event_wait`, the map points to an object for every
connected client, and its descriptor is registered for write events if and only if its `write_buf`
is not empty. And whatever the kernel reports then, the handlers use no pointer that is null or
points to a deleted client, and their loops end: only an exception of a command stops them. -/
theorem write_interest {g : Globals} {listenFd : ℕ} {isOpen : ℕ → Bool}
    (h : Waits libc clock g listenFd isOpen p) :
    (∀ fd c, p.clients fd = some c → ∃ a obj, c = some a ∧ p.heap a = some obj ∧ obj.fd = fd ∧
      ∃ w, p.kernel.poll fd = some w ∧ (w = true ↔ obj.writeBuf ≠ [])) ∧
    ∀ batch why, p.kernel.Reports batch → runBatch libc clock p batch = .error why →
      why = .uncaught := by
  constructor
  · intro fd c hc
    exact interest_of_waits libc clock h hc
  · intro batch why hreports hrun
    exact uncaught_of_error libc clock h hreports hrun

/-- A client connects and says `PING`: the reply waits, the loop asks for write events, and the
next one does not find a deleted client. -/
theorem write_interest_ping :
    ∃ (p : Process Epoll) (obj : ClientObject),
      Waits Libc.plain (fun _ => 0) Session.fresh.toGlobals 3 (fun _ => false) p ∧
      p.heap 0 = some obj ∧ obj.fd = 5 ∧ p.kernel.poll 5 = some true ∧ obj.writeBuf ≠ [] ∧
      runBatch Libc.plain (fun _ => 0) p [⟨5, none, none, some ([7], .again)⟩] ≠
        .error .dangling := by
  let start : Process Epoll := .start Session.fresh.toGlobals 3 fun _ => false
  let p₁ := acceptClient start (some 5)
  let ping : List PollEvent := [⟨5, none, some ([ascii "PING" ++ crlf], .again), none⟩]
  have hconnect : runBatch Libc.plain (fun _ => 0) start [⟨3, some 5, none, none⟩] = .ok p₁ := rfl
  have hwaits := Waits.batch .start (Epoll.Reports.mk (by decide) (by decide)) hconnect
  -- the second batch comes to its end
  have hping : (runBatch Libc.plain (fun _ => 0) p₁ ping).toOption.map
      (fun p => (p.clients 5, p.kernel.poll 5)) = some (some (some 0), some true) := by decide
  obtain ⟨p, hsome, hp⟩ := Option.map_eq_some_iff.mp hping
  obtain ⟨hentry, hpoll⟩ := Prod.mk.inj hp
  have hrun : runBatch Libc.plain (fun _ => 0) p₁ ping = .ok p := by
    cases hr : runBatch Libc.plain (fun _ => 0) p₁ ping with
    | error why =>
      rw [hr] at hsome
      cases hsome
    | ok q =>
      rw [hr] at hsome
      exact congrArg _ (Option.some.inj hsome)
  have hend := hwaits.batch (Epoll.Reports.mk (by decide) (by decide)) hrun
  obtain ⟨hclients, hbatches⟩ := write_interest Libc.plain (fun _ => 0) hend
  obtain ⟨a, obj, ha, hobj, hfd, w, hw, hmatch⟩ := hclients 5 (some 0) hentry
  obtain rfl := Option.some.inj ha
  obtain rfl := Option.some.inj (hw.symm.trans hpoll)
  refine ⟨p, obj, hend, hobj, hfd, hpoll, hmatch.mp rfl, fun herror => ?_⟩
  have hreports : p.kernel.Reports [⟨5, none, none, some ([7], .again)⟩] := by
    refine ⟨fun e he => ?_, by decide⟩
    rw [List.mem_singleton.mp he, hpoll]
    rfl
  cases hbatches _ _ hreports herror

end Minired
