import Minired.ClientSimulation

/-!
# The build with `kqueue`

Where there is no `epoll`, `server.cpp` is built with `kqueue`. A descriptor has two filters, one
for reading and one for writing, which come and go on their own, and `kevent` reports each of them
as an event of its own. So a batch may have two events for one descriptor, in any order, and the
first of them may close the client that the second one is about.

`handle_write` is not called then, for the loop looks the client up first. `handle_read` is: it puts
a null pointer into the map, calls `recv`, which fails because the descriptor is closed, and takes
the null pointer out again with `client_close` (`readClient_gone`). If the descriptor has been given
to a new client in between, the event is one of the new client.

What the filters stand for is an interest in events (`Filters.interest`), and with it the queue is
an `EventQueue` with the laws that the loop relies on. **`kqueue_loop`** is what the loop keeps,
said of the filters.
-/

namespace Minired

/-- The filters of an open descriptor that are in the kernel queue. -/
structure Filters where
  read : Bool
  write : Bool

/-- The interest in events that the filters stand for. -/
def Filters.interest (f : Filters) : Option Bool := if f.read then some f.write else none

/-- The descriptors that have filters are those that are open. -/
structure Kqueue where
  descriptors : ℕ → Option Filters

namespace Kqueue

/-- `kevent` with changes for one descriptor. It fails if the descriptor is not open. -/
def kevent (k : Kqueue) (fd : ℕ) (changes : Filters → Filters) : Kqueue where
  descriptors := Function.update k.descriptors fd ((k.descriptors fd).map changes)

/-- `event_add_read`. -/
def eventAddRead (k : Kqueue) (fd : ℕ) : Kqueue := k.kevent fd fun f => { f with read := true }

/-- `event_set_write`. -/
def eventSetWrite (k : Kqueue) (fd : ℕ) (wantWrite : Bool) : Kqueue :=
  k.kevent fd fun f => { f with write := wantWrite }

/-- `event_del`. The call stops at the first of its two changes if there is no filter to delete. -/
def eventDel (k : Kqueue) (fd : ℕ) : Kqueue :=
  k.kevent fd fun f => if f.read then ⟨false, false⟩ else f

/-- What `event_wait` may return: events for filters that are in the queue. A descriptor may have
several of them, and nothing is assumed about their order. -/
structure Reports (k : Kqueue) (batch : List PollEvent) : Prop where
  read : ∀ e ∈ batch, e.read.isSome = true → ∃ f, k.descriptors e.fd = some f ∧ f.read = true
  write : ∀ e ∈ batch, e.write.isSome = true → ∃ f, k.descriptors e.fd = some f ∧ f.write = true

/-- `kqueue`, as `server.cpp` uses it. -/
instance eventQueue : EventQueue Kqueue where
  create isOpen := ⟨fun fd => if isOpen fd then some ⟨false, false⟩ else none⟩
  isOpen k fd := (k.descriptors fd).isSome
  opened k fd := ⟨Function.update k.descriptors fd (some ⟨false, false⟩)⟩
  closed k fd := ⟨Function.update k.descriptors fd none⟩
  eventAddRead := eventAddRead
  eventSetWrite := eventSetWrite
  eventDel := eventDel
  Reports := Reports
  interest k fd := (k.descriptors fd).bind Filters.interest

/-- A descriptor with other filters has another interest. -/
theorem interest_update (k : Kqueue) (fd : ℕ) (d : Option Filters) :
    EventQueue.interest (⟨Function.update k.descriptors fd d⟩ : Kqueue) =
      Function.update (EventQueue.interest k) fd (d.bind Filters.interest) :=
  Function.comp_update (fun d : Option Filters => d.bind Filters.interest) k.descriptors fd d

/-- It is open if it has filters, even none of the two. -/
theorem isOpen_update (k : Kqueue) (fd : ℕ) (d : Option Filters) :
    EventQueue.isOpen (⟨Function.update k.descriptors fd d⟩ : Kqueue) =
      Function.update (EventQueue.isOpen k) fd d.isSome :=
  Function.comp_update Option.isSome k.descriptors fd d

/-- No call of `kevent` opens or closes a descriptor. -/
theorem isOpen_kevent (k : Kqueue) (fd : ℕ) (changes : Filters → Filters) :
    EventQueue.isOpen (k.kevent fd changes) = EventQueue.isOpen k := by
  rw [kevent, isOpen_update, Option.isSome_map]
  exact Function.update_eq_self fd _

/-- An interest is that of the filter for reading. -/
theorem filters_of_interest {k : Kqueue} {fd : ℕ} {w : Bool}
    (h : EventQueue.interest k fd = some w) : k.descriptors fd = some ⟨true, w⟩ := by
  obtain ⟨⟨read, write⟩, hf, hinterest⟩ := Option.bind_eq_some_iff.mp h
  cases read with
  | false => cases hinterest
  | true =>
    obtain rfl := Option.some.inj hinterest
    exact hf

/-- What the loop relies on holds of `kevent` and of closing a descriptor. -/
instance lawful : LawfulEventQueue Kqueue where
  interest_create isOpen := by
    funext fd
    show (if isOpen fd then some (⟨false, false⟩ : Filters) else none).bind Filters.interest = none
    cases isOpen fd with
    | false => rfl
    | true => rfl
  interest_add {k fd} _ := by
    -- a descriptor that has just been opened has none of the two filters
    show EventQueue.interest (kevent ⟨Function.update k.descriptors fd _⟩ fd _) = _
    rw [kevent]
    dsimp only
    rw [Function.update_self, Function.update_idem, interest_update]
    rfl
  isOpen_add k fd := by
    show EventQueue.isOpen (kevent ⟨Function.update k.descriptors fd _⟩ fd _) = _
    rw [isOpen_kevent, isOpen_update]
    rfl
  interest_set {k fd w} h wantWrite := by
    show EventQueue.interest (kevent k fd _) = _
    rw [kevent, interest_update, filters_of_interest h]
    rfl
  isOpen_set k fd _ := isOpen_kevent k fd _
  set_self {k fd w} h := by
    -- the filter for writing is added or deleted once more
    have hfilters := filters_of_interest h
    have hsame : Function.update k.descriptors fd (some ⟨true, w⟩) = k.descriptors := by
      rw [← hfilters, Function.update_eq_self]
    show kevent k fd _ = k
    rw [kevent, hfilters]
    exact congrArg Kqueue.mk hsame
  interest_close k fd := by
    show EventQueue.interest (⟨Function.update (kevent k fd _).descriptors fd none⟩ : Kqueue) = _
    rw [kevent, Function.update_idem, interest_update]
    rfl
  isOpen_close k fd := by
    show EventQueue.isOpen (⟨Function.update (kevent k fd _).descriptors fd none⟩ : Kqueue) = _
    rw [kevent, Function.update_idem, isOpen_update]
    rfl
  del_closed {k fd} hopen _ := by
    -- `kevent` fails with `EBADF`
    have hnone : k.descriptors fd = none := by
      have hnot : (k.descriptors fd).isSome = false := hopen
      rwa [Option.isSome_eq_false_iff, Option.isNone_iff_eq_none] at hnot
    have hsame : Function.update k.descriptors fd none = k.descriptors := by
      rw [← hnone, Function.update_eq_self]
    show kevent k fd _ = k
    rw [kevent, hnone]
    exact congrArg Kqueue.mk hsame
  reports_read {k batch} h {e} he hread := by
    obtain ⟨f, hf, hregistered⟩ := h.read e he hread
    show ((k.descriptors e.fd).bind Filters.interest).isSome = true
    rw [hf, Option.bind_some, Filters.interest, if_pos hregistered]
    rfl

end Kqueue

/-- **The loop with `kqueue`.** Whenever a run comes to `event_wait`, the process represents a run
of the server, the map points to an object for every connected client, whose descriptor has the
filter for reading, and the one for writing if and only if `write_buf` is not empty. And whatever
the kernel reports then, in any order, the handlers use no pointer that is null or points to a
deleted client, and their loops end: only an exception of a command stops them. -/
theorem kqueue_loop (libc : Libc) (clock : ℕ → Int64) {g : Globals} {listenFd : ℕ}
    {isOpen : ℕ → Bool} {p : Process Kqueue} (h : Waits libc clock g listenFd isOpen p) :
    (∃ events, Represents p (serverRun libc clock g events)) ∧
    (∀ fd c, p.clients fd = some c → ∃ a obj, c = some a ∧ p.heap a = some obj ∧ obj.fd = fd ∧
      ∃ f, p.kernel.descriptors fd = some f ∧ f.read = true ∧
        (f.write = true ↔ obj.writeBuf ≠ [])) ∧
    ∀ batch why, p.kernel.Reports batch → runBatch libc clock p batch = .error why →
      why = .uncaught := by
  refine ⟨waits_represents libc clock h, fun fd c hc => ?_, fun batch why hreports hrun => ?_⟩
  · obtain ⟨a, obj, rfl, hobj, hfd, w, hinterest, hwrite⟩ := interest_of_waits libc clock h hc
    exact ⟨a, obj, rfl, hobj, hfd, _, Kqueue.filters_of_interest hinterest, rfl, hwrite⟩
  · exact uncaught_of_error libc clock h hreports hrun

/-- A client says `PING`, and is reported for writing and for reading: the first event closes it,
for `send` fails, and the second one does no harm. -/
theorem kqueue_loop_closed :
    ∃ (p : Process Kqueue) (obj : ClientObject),
      Waits Libc.plain (fun _ => 0) Session.fresh.toGlobals 3 (fun _ => false) p ∧
      p.heap 0 = some obj ∧ obj.fd = 5 ∧ obj.writeBuf ≠ [] ∧
      runBatch Libc.plain (fun _ => 0) p
        [⟨5, none, none, some ([], .failed)⟩, ⟨5, none, some ([], .again), none⟩] ≠
        .error .null := by
  let start : Process Kqueue := .start Session.fresh.toGlobals 3 fun _ => false
  let p₁ := acceptClient start (some 5)
  let ping : List PollEvent := [⟨5, none, some ([ascii "PING" ++ crlf], .again), none⟩]
  have hconnect : runBatch Libc.plain (fun _ => 0) start [⟨3, some 5, none, none⟩] = .ok p₁ := rfl
  have hwaits := Waits.batch .start (Kqueue.Reports.mk (by simp) (by simp)) hconnect
  -- the reply waits, and the client is registered for writing, too
  have hping : (runBatch Libc.plain (fun _ => 0) p₁ ping).toOption.map
      (fun p => (p.clients 5, (p.kernel.descriptors 5).map Filters.write)) =
        some (some (some 0), some true) := by decide
  obtain ⟨p, hsome, hp⟩ := Option.map_eq_some_iff.mp hping
  obtain ⟨hentry, hfilter⟩ := Prod.mk.inj hp
  have hrun : runBatch Libc.plain (fun _ => 0) p₁ ping = .ok p := by
    cases hr : runBatch Libc.plain (fun _ => 0) p₁ ping with
    | error why =>
      rw [hr] at hsome
      cases hsome
    | ok q =>
      rw [hr] at hsome
      exact congrArg _ (Option.some.inj hsome)
  have hreports : p₁.kernel.Reports ping := by
    refine ⟨fun e he _ => ?_, fun e he hwrite => ?_⟩
    · rw [List.mem_singleton.mp he]
      exact ⟨⟨true, false⟩, rfl, rfl⟩
    · rw [List.mem_singleton.mp he] at hwrite
      cases hwrite
  have hend := hwaits.batch hreports hrun
  obtain ⟨-, hclients, hbatches⟩ := kqueue_loop Libc.plain (fun _ => 0) hend
  obtain ⟨a, obj, ha, hobj, hfd, f, hf, hread, hmatch⟩ := hclients 5 (some 0) hentry
  obtain rfl := Option.some.inj ha
  rw [hf, Option.map_some, Option.some.injEq] at hfilter
  refine ⟨p, obj, hend, hobj, hfd, hmatch.mp hfilter, fun herror => ?_⟩
  have hboth : p.kernel.Reports
      [⟨5, none, none, some ([], .failed)⟩, ⟨5, none, some ([], .again), none⟩] := by
    refine ⟨fun e he _ => ⟨f, ?_, hread⟩, fun e he _ => ⟨f, ?_, hfilter⟩⟩ <;>
      rcases List.mem_pair.mp he with rfl | rfl <;> exact hf
  cases hbatches _ _ hboth herror

end Minired
