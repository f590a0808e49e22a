import Minired.WriteInterest

/-!
# The clients behind pointers

`Server::clients` maps a descriptor to a pointer. `handle_read` and `handle_write` get it with
`operator[]`, which puts a null pointer into the map for a descriptor that has no client, and use
it up to their end, although they may have called `client_close`, which deletes the client. In
`EventLoop` a client is simply there or not. Here it is an object at an address, every access is
checked (`load`, `store`), and so is the `delete`; addresses are not used again, so that a pointer
to a client that is gone cannot be mistaken for one to a later client.

The descriptors that are open and the events that are asked for belong to the kernel. `server.cpp`
can be built with `epoll` and with `kqueue`, and the handlers are the same: they are written over an
`EventQueue`, and what they rely on are the laws of `LawfulEventQueue`. `accept` gives a descriptor
that is not open, and closing a descriptor takes it out of the queue. The two builds are in
`EpollLoop` and `KqueueLoop`.

**`readClient_settled`** says what `handle_read` does on an object in memory in terms of
`handleRead`, and the lemmas on `writeClient` do the same for `handle_write`: no check fails, and a
client that is closed on the way is not used any more. What this means for the loop is in
`ClientSimulation`.
-/

namespace Minired

open Relational

/-! ### The process -/

/-- `Client`, as an object. -/
structure ClientObject where
  fd : ℕ
  readBuf : Bytes
  writeBuf : Bytes
  closing : Bool

/-- Why the process does not go on: a null pointer or one to a deleted client was used, a loop did
not come to its end, or an exception left a command. -/
inductive Halt
  | null
  | dangling
  | unfinished
  | uncaught
  deriving DecidableEq

/-- A value, or the end of the process. -/
abbrev Running := Except Halt

/-! ### The kernel -/

/-- `Event`, with the answers to the calls that follow: what `accept` returns, what `recv`
delivers, when the descriptor is readable, and what `send` takes, when it is writable. -/
structure PollEvent where
  fd : ℕ
  accepted : Option ℕ
  read : Option (List Bytes × RecvEnd)
  write : Option (List ℕ × SendEnd)

/-- **What a build takes from the kernel.** `event_add_read`, `event_set_write`, `event_del` and
`event_wait` are in `server.cpp` twice, for `epoll` and for `kqueue`. `K` is what the kernel keeps
for the process, the descriptors that are open among it. -/
class EventQueue (K : Type) where
  /-- A new queue, with the descriptors that are open already. -/
  create : (ℕ → Bool) → K
  isOpen : K → ℕ → Bool
  /-- What `socket` and `accept` do: the descriptor is open, and not in the queue. -/
  opened : K → ℕ → K
  /-- What `close` does: the queue forgets the descriptor. -/
  closed : K → ℕ → K
  eventAddRead : K → ℕ → K
  eventSetWrite : K → ℕ → Bool → K
  eventDel : K → ℕ → K
  /-- The batches that `event_wait` may return. -/
  Reports : K → List PollEvent → Prop
  /-- The events that are asked for: none, those for reading, or those for writing, too. -/
  interest : K → ℕ → Option Bool

/-- The process, and what the kernel keeps for it. `served` is the number of commands so far, for
the clock. -/
structure Process (K : Type) where
  globals : Globals
  heap : ℕ → Option ClientObject
  next : ℕ
  clients : ℕ → Option (Option ℕ)
  listenFd : ℕ
  kernel : K
  served : ℕ

namespace Process

variable {K : Type}

/-- `s->clients[fd]`. -/
def clientsAt (p : Process K) (fd : ℕ) : Option ℕ × Process K :=
  match p.clients fd with
  | some c => (c, p)
  | none => (none, { p with clients := Function.update p.clients fd (some none) })

/-- `*c`. -/
def load (p : Process K) : Option ℕ → Running ClientObject
  | none => throw .null
  | some a =>
    match p.heap a with
    | none => throw .dangling
    | some obj => return obj

/-- An assignment to members of `*c`. -/
def store (p : Process K) (c : Option ℕ) (obj : ClientObject) : Running (Process K) :=
  match c with
  | none => throw .null
  | some a =>
    match p.heap a with
    | none => throw .dangling
    | some _ => return { p with heap := Function.update p.heap a (some obj) }

/-- `new Client(fd)`. -/
def alloc (p : Process K) (fd : ℕ) : ℕ × Process K :=
  (p.next, { p with
    heap := Function.update p.heap p.next (some ⟨fd, [], [], false⟩)
    next := p.next + 1 })

variable [EventQueue K]

/-- The descriptor is open. -/
abbrev isOpen (p : Process K) (fd : ℕ) : Bool := EventQueue.isOpen p.kernel fd

/-- The events that are asked for. -/
abbrev interest (p : Process K) (fd : ℕ) : Option Bool := EventQueue.interest p.kernel fd

/-- `event_add_read`. -/
def eventAddRead (p : Process K) (fd : ℕ) : Process K :=
  { p with kernel := EventQueue.eventAddRead p.kernel fd }

/-- `event_set_write`. -/
def eventSetWrite (p : Process K) (fd : ℕ) (wantWrite : Bool) : Process K :=
  { p with kernel := EventQueue.eventSetWrite p.kernel fd wantWrite }

/-- `event_del`. -/
def eventDel (p : Process K) (fd : ℕ) : Process K :=
  { p with kernel := EventQueue.eventDel p.kernel fd }

/-- `delete c`. `~Client` closes the descriptor. -/
def delete (p : Process K) : Option ℕ → Running (Process K)
  | none => return p
  | some a =>
    match p.heap a with
    | none => throw .dangling
    | some obj =>
      return { p with
        heap := Function.update p.heap a none
        kernel := EventQueue.closed p.kernel obj.fd }

/-- What `recv` comes to: on a descriptor that is not open it fails, and `errno` is `EBADF`. -/
def received (p : Process K) (fd : ℕ) (read : List Bytes × RecvEnd) : List Bytes × RecvEnd :=
  if p.isOpen fd then read else ([], .failed)

end Process

/-! ### The handlers -/

section Handlers

variable {K : Type} [EventQueue K]

/-- `client_close`. -/
def closeClient (p : Process K) (fd : ℕ) : Running (Process K) :=
  let p := p.eventDel fd
  match p.clients fd with
  | none => return p
  | some c => do
    let p ← p.delete c
    return { p with clients := Function.update p.clients fd none }

/-- `handle_accept`, with the descriptor that `accept` returns, if it does. It is one that is not
open. -/
def acceptClient (p : Process K) : Option ℕ → Process K
  | none => p
  | some cfd =>
    if p.isOpen cfd then p
    else
      let p := { p with kernel := EventQueue.opened p.kernel cfd }.eventAddRead cfd
      let (c, p) := p.alloc cfd
      { p with clients := Function.update p.clients cfd (some (some c)) }

variable (libc : Libc) (clock : ℕ → Int64)

/-- The loop of `handle_read` over the calls of `recv`; it says whether the client is still
there. -/
def recvLoop (c : Option ℕ) (fd : ℕ) : List Bytes → RecvEnd → Process K → Running (Bool × Process K)
  | [], last, p =>
    match last with
    | .eof => return (false, ← closeClient p fd)
    | .again => return (true, p)
    | .failed => return (false, ← closeClient p fd)
  | chunk :: chunks, last, p => do
    let obj ← p.load c
    let p ← p.store c { obj with readBuf := obj.readBuf ++ chunk }
    recvLoop c fd chunks last p

/-- Behind a command: nothing catches an exception that leaves it. -/
def returned (p : Process K) : Except Fault Unit → Running (Process K)
  | .error _ => throw .uncaught
  | .ok _ => return p

omit [EventQueue K] in
/-- A command that has returned. -/
@[simp] theorem returned_ok (p : Process K) (u : Unit) : returned p (.ok u) = .ok p := rfl

/-- `dispatch_command`, called for a client. -/
def dispatchFor (p : Process K) (c : Option ℕ) (args : List Bytes) : Running (Process K) := do
  let obj ← p.load c
  let r := exec (dispatchCommand libc (clock p.served) args)
    { p.globals with writeBuf := obj.writeBuf, closing := obj.closing }
  let p := { p with globals := r.2.toGlobals, served := p.served + 1 }
  let p ← p.store c { obj with writeBuf := r.2.writeBuf, closing := r.2.closing }
  returned p r.1

/-- The loop of `handle_read` over the commands. -/
def serveLoop (c : Option ℕ) (fd : ℕ) : ℕ → Process K → Running (Bool × Process K)
  | 0, _ => throw .unfinished
  | fuel + 1, p => do
    let obj ← p.load c
    if obj.readBuf = [] then return (true, p)
    else
      let res := respParse obj.readBuf
      match res.status with
      | .incomplete => return (true, p)
      | .error => do
        let p ← p.store c
          { obj with writeBuf := obj.writeBuf ++ ascii "-ERR protocol error" ++ Minired.crlf }
        return (false, ← closeClient p fd)
      | .ok => do
        let p ← dispatchFor libc clock p c res.args
        let obj ← p.load c
        let p ← p.store c { obj with readBuf := obj.readBuf.drop res.consumed }
        if (← p.load c).closing then return (false, ← closeClient p fd)
        else serveLoop c fd fuel p

/-- `handle_read`, with what the calls of `recv` come to while the descriptor is open. -/
def readClient (p : Process K) (fd : ℕ) (read : List Bytes × RecvEnd) : Running (Process K) := do
  let (c, p) := p.clientsAt fd
  let (chunks, last) := p.received fd read
  let (goesOn, p) ← recvLoop c fd chunks last p
  if !goesOn then return p
  else do
    let (goesOn, p) ← serveLoop libc clock c fd ((← p.load c).readBuf.length + 1) p
    if !goesOn then return p
    else if (← p.load c).writeBuf ≠ [] then return p.eventSetWrite fd true
    else return p

/-- The loop of `handle_write`, over the numbers of bytes that `send` takes. -/
def flushLoop (c : Option ℕ) (fd : ℕ) : List ℕ → SendEnd → Process K → Running (Bool × Process K)
  | [], last, p => do
    if (← p.load c).writeBuf = [] then return (true, p)
    else
      match last with
      | .again => return (true, p)
      | .failed => return (false, ← closeClient p fd)
  | n :: ns, last, p => do
    let obj ← p.load c
    if obj.writeBuf = [] then return (true, p)
    else do
      let p ← p.store c { obj with writeBuf := obj.writeBuf.drop n }
      flushLoop c fd ns last p

/-- `handle_write`. -/
def writeClient (p : Process K) (fd : ℕ) (sends : List ℕ) (last : SendEnd) :
    Running (Process K) := do
  let (c, p) := p.clientsAt fd
  let (goesOn, p) ← flushLoop c fd sends last p
  if !goesOn then return p
  else if (← p.load c).writeBuf = [] then return p.eventSetWrite fd false
  else return p

/-! ### The loop -/

/-- The call of `handle_read`. -/
def pollRead (p : Process K) (fd : ℕ) : Option (List Bytes × RecvEnd) → Running (Process K)
  | none => return p
  | some read => readClient libc clock p fd read

/-- The call of `handle_write`. -/
def pollWrite (p : Process K) (fd : ℕ) : Option (List ℕ × SendEnd) → Running (Process K)
  | none => return p
  | some (sends, last) =>
    if (p.clients fd).isSome then writeClient p fd sends last else return p

/-- The body of the loop of `server_run`. -/
def runEvent (p : Process K) (e : PollEvent) : Running (Process K) :=
  if e.fd = p.listenFd then return acceptClient p e.accepted
  else do
    let p ← pollRead libc clock p e.fd e.read
    pollWrite p e.fd e.write

/-- What `server_run` does between two calls of `event_wait`. -/
def runBatch (p : Process K) (batch : List PollEvent) : Running (Process K) :=
  batch.foldlM (runEvent libc clock) p

/-- The process when `server_run` is called: only the listening socket is in the queue. -/
def Process.start (g : Globals) (listenFd : ℕ) (isOpen : ℕ → Bool) : Process K where
  globals := g
  heap := fun _ => none
  next := 0
  clients := fun _ => none
  listenFd := listenFd
  kernel := EventQueue.eventAddRead (EventQueue.opened (EventQueue.create isOpen) listenFd) listenFd
  served := 0

/-- The processes that come to a call of `event_wait`. -/
inductive Waits (g : Globals) (listenFd : ℕ) (isOpen : ℕ → Bool) : Process K → Prop
  | start : Waits g listenFd isOpen (.start g listenFd isOpen)
  | batch {p p' : Process K} {batch : List PollEvent} (h : Waits g listenFd isOpen p)
      (hreports : EventQueue.Reports p.kernel batch) (hrun : runBatch libc clock p batch = .ok p') :
      Waits g listenFd isOpen p'

end Handlers

/-! ### What the kernel does -/

/-- **What the loop relies on.** A new client is in the queue for reading, `event_set_write` changes
what is asked for of one descriptor and nothing else, a client that is closed leaves nothing behind,
and the events for reading are about descriptors in the queue. -/
class LawfulEventQueue (K : Type) [EventQueue K] : Prop where
  interest_create (isOpen : ℕ → Bool) :
    EventQueue.interest (EventQueue.create isOpen : K) = fun _ => none
  interest_add {k : K} {fd : ℕ} (h : EventQueue.interest k fd = none) :
    EventQueue.interest (EventQueue.eventAddRead (EventQueue.opened k fd) fd) =
      Function.update (EventQueue.interest k) fd (some false)
  isOpen_add (k : K) (fd : ℕ) :
    EventQueue.isOpen (EventQueue.eventAddRead (EventQueue.opened k fd) fd) =
      Function.update (EventQueue.isOpen k) fd true
  interest_set {k : K} {fd : ℕ} {w : Bool} (h : EventQueue.interest k fd = some w)
      (wantWrite : Bool) : EventQueue.interest (EventQueue.eventSetWrite k fd wantWrite) =
    Function.update (EventQueue.interest k) fd (some wantWrite)
  isOpen_set (k : K) (fd : ℕ) (wantWrite : Bool) :
    EventQueue.isOpen (EventQueue.eventSetWrite k fd wantWrite) = EventQueue.isOpen k
  set_self {k : K} {fd : ℕ} {w : Bool} (h : EventQueue.interest k fd = some w) :
    EventQueue.eventSetWrite k fd w = k
  interest_close (k : K) (fd : ℕ) :
    EventQueue.interest (EventQueue.closed (EventQueue.eventDel k fd) fd) =
      Function.update (EventQueue.interest k) fd none
  isOpen_close (k : K) (fd : ℕ) :
    EventQueue.isOpen (EventQueue.closed (EventQueue.eventDel k fd) fd) =
      Function.update (EventQueue.isOpen k) fd false
  /-- `event_del` fails for a descriptor that is not open. -/
  del_closed {k : K} {fd : ℕ} (hopen : EventQueue.isOpen k fd = false)
      (h : EventQueue.interest k fd = none) : EventQueue.eventDel k fd = k
  reports_read {k : K} {batch : List PollEvent} (h : EventQueue.Reports k batch) {e : PollEvent}
      (he : e ∈ batch) (hread : e.read.isSome = true) :
    (EventQueue.interest k e.fd).isSome = true

/-! ### One object in memory -/

section Object

variable {K : Type} {p : Process K} {a fd : ℕ} {obj obj' : ClientObject} {g : Globals} {n : ℕ}

/-- A step that succeeds, in front of the rest. -/
theorem running_bind {α β : Type} (x : α) (f : α → Running β) :
    ((Except.ok x : Running α) >>= f) = f x := rfl

/-- The process with another object at `a`, and with other globals. -/
def Process.put (p : Process K) (a : ℕ) (obj : ClientObject) (g : Globals) (n : ℕ) : Process K :=
  { p with heap := Function.update p.heap a (some obj), globals := g, served := n }

/-- The object that has been put there. -/
@[simp] theorem load_put : (p.put a obj g n).load (some a) = .ok obj := by
  unfold Process.load Process.put
  dsimp only
  rw [Function.update_self]
  rfl

/-- Of two objects that are put there, the second one stays. -/
@[simp] theorem store_put : (p.put a obj g n).store (some a) obj' = .ok (p.put a obj' g n) := by
  unfold Process.store Process.put
  dsimp only
  rw [Function.update_self]
  dsimp only
  rw [Function.update_idem]
  rfl

/-- An object that is put where it is. -/
theorem put_self (h : p.heap a = some obj) : p.put a obj p.globals p.served = p := by
  unfold Process.put
  rw [← h, Function.update_eq_self]

variable [EventQueue K]

/-- The process without the client at `fd` and its object. -/
def Process.remove (p : Process K) (a fd : ℕ) (g : Globals) (n : ℕ) : Process K :=
  { p with
    globals := g
    heap := Function.update p.heap a none
    clients := Function.update p.clients fd none
    kernel := EventQueue.closed (EventQueue.eventDel p.kernel fd) fd
    served := n }

/-- The interest that is there already. -/
theorem eventSetWrite_self [LawfulEventQueue K] {w : Bool} (h : p.interest fd = some w) :
    p.eventSetWrite fd w = p :=
  congrArg (fun k => { p with kernel := k }) (LawfulEventQueue.set_self h)

/-- **`client_close`** removes the client and its object. -/
theorem closeClient_put (hentry : p.clients fd = some (some a)) (r w : Bytes) (closing : Bool) :
    closeClient (p.put a ⟨fd, r, w, closing⟩ g n) fd = .ok (p.remove a fd g n) := by
  unfold closeClient Process.eventDel Process.put
  dsimp only
  rw [hentry]
  unfold Process.delete
  dsimp only
  rw [Function.update_self]
  dsimp only
  rw [Function.update_idem]
  rfl

end Object

/-! ### The read handler -/

section Read

variable {K : Type} [EventQueue K] {p : Process K} {a fd : ℕ} {obj : ClientObject} {g : Globals}
  {n : ℕ}

/-- A drain that ends with `EAGAIN` appends what has come to `read_buf`. -/
theorem recvLoop_again (chunks : List Bytes) :
    recvLoop (some a) fd chunks .again (p.put a obj g n) =
      .ok (true, p.put a { obj with readBuf := obj.readBuf ++ chunks.flatten } g n) := by
  induction chunks generalizing obj with
  | nil =>
    rw [List.flatten_nil, List.append_nil]
    rfl
  | cons chunk chunks ih =>
    rw [recvLoop, load_put, running_bind, store_put, running_bind, ih, List.flatten_cons,
      List.append_assoc]

/-- With any other end the client is closed. -/
theorem recvLoop_closed (hentry : p.clients fd = some (some a)) {last : RecvEnd}
    (hlast : last ≠ .again) (chunks : List Bytes) (r w : Bytes) (closing : Bool) :
    recvLoop (some a) fd chunks last (p.put a ⟨fd, r, w, closing⟩ g n) =
      .ok (false, p.remove a fd g n) := by
  induction chunks generalizing r with
  | nil =>
    cases last with
    | again => exact absurd rfl hlast
    | eof =>
      rw [recvLoop, closeClient_put hentry]
      rfl
    | failed =>
      rw [recvLoop, closeClient_put hentry]
      rfl
  | cons chunk chunks ih =>
    rw [recvLoop, load_put, running_bind, store_put, running_bind]
    exact ih (r ++ chunk)

/-- The process while the commands of a client are executed: `c` is the client with the globals,
and `m` commands have been served before. -/
def Process.serving (p : Process K) (a fd m : ℕ) (c : Conn) : Process K :=
  p.put a ⟨fd, c.readBuf, c.session.writeBuf, c.session.closing⟩ c.session.toGlobals
    (m + c.dispatched.length)

/-- What the loop over the commands leaves. -/
def Process.serveEnd (p : Process K) (a fd m : ℕ) (r : Conn) : Running (Bool × Process K) :=
  match r.status with
  | .connected => .ok (true, p.serving a fd m r)
  | .crashed => .error .uncaught
  | _ => .ok (false, p.remove a fd r.session.toGlobals (m + r.dispatched.length))

/-- The client stays. -/
theorem serveEnd_stays {m : ℕ} {r : Conn} (h : r.status = .connected) :
    p.serveEnd a fd m r = .ok (true, p.serving a fd m r) := by
  rw [Process.serveEnd, h]

/-- The process has ended. -/
theorem serveEnd_crashed {m : ℕ} {r : Conn} (h : r.status = .crashed) :
    p.serveEnd a fd m r = .error .uncaught := by
  rw [Process.serveEnd, h]

/-- The client is closed. -/
theorem serveEnd_closed {m : ℕ} {r : Conn} (hstays : r.status ≠ .connected)
    (hcrashed : r.status ≠ .crashed) :
    p.serveEnd a fd m r =
      .ok (false, p.remove a fd r.session.toGlobals (m + r.dispatched.length)) := by
  unfold Process.serveEnd
  split
  · next h => exact absurd h hstays
  · next h => exact absurd h hcrashed
  · rfl

variable (libc : Libc) (clock : ℕ → Int64)

omit [EventQueue K] in
/-- A command leaves its reply in the client, and the globals. -/
theorem dispatchFor_serving (m : ℕ) (c : Conn) (args : List Bytes) :
    let r := exec (dispatchCommand libc (clock (m + c.dispatched.length)) args) c.session
    dispatchFor libc clock (p.serving a fd m c) (some a) args = returned (p.serving a fd m
      { c with session := r.2, dispatched := c.dispatched ++ [args] }) r.1 := by
  intro r
  -- the globals and the client make up the session again
  have hstored : Process.store
      { p.serving a fd m c with
        globals := r.2.toGlobals
        served := m + c.dispatched.length + 1 } (some a)
      ⟨fd, c.readBuf, r.2.writeBuf, r.2.closing⟩ = .ok (p.serving a fd m
        { c with session := r.2, dispatched := c.dispatched ++ [args] }) := by
    have hserved : m + (c.dispatched ++ [args]).length = m + c.dispatched.length + 1 := by
      rw [List.length_append, List.length_singleton, Nat.add_assoc]
    unfold Process.serving
    dsimp only
    rw [hserved]
    exact store_put
  unfold dispatchFor
  rw [Process.serving, load_put, running_bind]
  exact congrArg (· >>= fun p => returned p r.1) hstored

omit [EventQueue K] in
/-- The client and the globals are where the loop looks for them. -/
theorem load_serving (m : ℕ) (c : Conn) : (p.serving a fd m c).load (some a) =
    .ok ⟨fd, c.readBuf, c.session.writeBuf, c.session.closing⟩ := load_put

omit [EventQueue K] in
/-- Behind a command its bytes are taken off `read_buf`. -/
theorem store_next (m : ℕ) (c : Conn) (s : Session) :
    (p.serving a fd m { c with
        session := s
        dispatched := c.dispatched ++ [(respParse c.readBuf).args] }).store (some a)
      ⟨fd, c.readBuf.drop (respParse c.readBuf).consumed, s.writeBuf, s.closing⟩ =
      .ok (p.serving a fd m (c.next s)) := store_put

/-- An iteration in front of a protocol error. -/
theorem serveLoop_malformed {m : ℕ} {c : Conn} (hentry : p.clients fd = some (some a))
    (hparse : (respParse c.readBuf).status = .error) (fuel : ℕ) :
    serveLoop libc clock (some a) fd (fuel + 1) (p.serving a fd m c) =
      .ok (false, p.remove a fd c.session.toGlobals (m + c.dispatched.length)) := by
  have hne : c.readBuf ≠ [] := ne_nil_of_status (by rw [hparse]; decide)
  rw [serveLoop, load_serving, running_bind]
  dsimp only
  rw [if_neg hne, hparse]
  dsimp only
  -- the line is appended, and deleted with the client
  rw [Process.serving, store_put, running_bind, closeClient_put hentry]
  rfl

/-- An iteration that executes a command which does not return. -/
theorem serveLoop_crash {m : ℕ} {c : Conn} {e : Fault} {s : Session}
    (hparse : (respParse c.readBuf).status = .ok)
    (hexec : exec (dispatchCommand libc (clock (m + c.dispatched.length))
      (respParse c.readBuf).args) c.session = (.error e, s)) (fuel : ℕ) :
    serveLoop libc clock (some a) fd (fuel + 1) (p.serving a fd m c) = .error .uncaught := by
  have hne : c.readBuf ≠ [] := ne_nil_of_status (by rw [hparse]; decide)
  rw [serveLoop, load_serving, running_bind]
  dsimp only
  rw [if_neg hne, hparse]
  dsimp only
  rw [dispatchFor_serving, hexec]
  rfl

/-- An iteration that executes a command which returns. -/
theorem serveLoop_command {m : ℕ} {c : Conn} {s : Session}
    (hparse : (respParse c.readBuf).status = .ok)
    (hexec : exec (dispatchCommand libc (clock (m + c.dispatched.length))
      (respParse c.readBuf).args) c.session = (.ok (), s)) (fuel : ℕ) :
    serveLoop libc clock (some a) fd (fuel + 1) (p.serving a fd m c) =
      if s.closing = true then (do return (false, ← closeClient (p.serving a fd m (c.next s)) fd))
      else serveLoop libc clock (some a) fd fuel (p.serving a fd m (c.next s)) := by
  have hne : c.readBuf ≠ [] := ne_nil_of_status (by rw [hparse]; decide)
  rw [serveLoop, load_serving, running_bind]
  dsimp only
  rw [if_neg hne, hparse]
  dsimp only
  -- the command, and then what is left of `read_buf`
  rw [dispatchFor_serving, hexec, returned_ok, running_bind, load_serving, running_bind]
  dsimp only
  rw [store_next, running_bind, load_serving, running_bind]
  rfl

/-- **The loop over the commands** does in memory what it does on the client. -/
theorem serveLoop_serving (hentry : p.clients fd = some (some a)) (m : ℕ) {fuel : ℕ} {c : Conn}
    (hopen : c.status = .connected) (hfuel : c.readBuf.length < fuel) :
    serveLoop libc clock (some a) fd fuel (p.serving a fd m c) =
      p.serveEnd a fd m (parseLoop libc (fun i => clock (m + i)) fuel c) := by
  induction fuel generalizing c with
  | zero => exact absurd hfuel (Nat.not_lt_zero _)
  | succ fuel ih =>
    -- the clock goes on from the commands that have been served before
    let times := fun i => clock (m + i)
    cases loopCase libc times c with
    | waits hparse =>
      rw [parseLoop_incomplete libc times hparse, serveLoop, load_serving, running_bind,
        Process.serveEnd, hopen]
      dsimp only
      rw [hparse]
      split_ifs
      · rfl
      · rfl
    | malformed hparse =>
      rw [parseLoop_error libc times hparse, serveLoop_malformed libc clock hentry hparse]
      rfl
    | crashes hparse hexec =>
      rw [parseLoop_crash libc times hparse hexec, serveLoop_crash libc clock hparse hexec]
      rfl
    | @quits s hparse hexec hquit =>
      rw [parseLoop_quit libc times hparse hexec hquit,
        serveLoop_command libc clock hparse hexec, if_pos hquit, Process.serving,
        closeClient_put hentry]
      rfl
    | @continues s hparse hexec hgoes =>
      have hless := length_next hparse s
      rw [parseLoop_next libc times hparse hexec hgoes,
        serveLoop_command libc clock hparse hexec, if_neg (by rw [hgoes]; decide)]
      exact ih hopen (by omega)

omit [EventQueue K] in
/-- `s->clients[fd]` of a client that is there. -/
theorem clientsAt_of_entry {c : Option ℕ} (h : p.clients fd = some c) :
    p.clientsAt fd = (c, p) := by
  unfold Process.clientsAt
  rw [h]

/-- An open descriptor is read from. -/
theorem received_of_open (h : p.isOpen fd = true) (read : List Bytes × RecvEnd) :
    p.received fd read = read := if_pos h

/-- What `handle_read` leaves: the client with its interest, or the process without it. -/
def Process.settled (p : Process K) (a fd m : ℕ) (r : Conn) : Running (Process K) := do
  let (goesOn, q) ← p.serveEnd a fd m r
  return if goesOn then q.eventSetWrite fd r.wantWrite else q

/-- The client stays. -/
theorem settled_stays {m : ℕ} {r : Conn} (h : r.status = .connected) :
    p.settled a fd m r = .ok ((p.serving a fd m r).eventSetWrite fd r.wantWrite) := by
  rw [Process.settled, serveEnd_stays h]
  rfl

/-- The process has ended. -/
theorem settled_crashed {m : ℕ} {r : Conn} (h : r.status = .crashed) :
    p.settled a fd m r = .error .uncaught := by
  rw [Process.settled, serveEnd_crashed h]
  rfl

/-- The client is closed. -/
theorem settled_closed {m : ℕ} {r : Conn} (hstays : r.status ≠ .connected)
    (hcrashed : r.status ≠ .crashed) :
    p.settled a fd m r = .ok (p.remove a fd r.session.toGlobals (m + r.dispatched.length)) := by
  rw [Process.settled, serveEnd_closed hstays hcrashed]
  rfl

/-- The end of `handle_read`: the interest is set if there is something to send. -/
theorem interest_serving [LawfulEventQueue K] {m : ℕ} {r : Conn}
    (hinterest : p.interest fd = some r.wantWrite) (hstays : r.status = .connected) :
    (do
      if (← (p.serving a fd m r).load (some a)).writeBuf ≠ [] then
        return (p.serving a fd m r).eventSetWrite fd true
      else return p.serving a fd m r) =
    p.settled a fd m (if r.status = .connected ∧ r.session.writeBuf ≠ [] then
      { r with wantWrite := true } else r) := by
  have hserving : (p.serving a fd m r).interest fd = some r.wantWrite := hinterest
  rw [load_serving, running_bind]
  dsimp only
  by_cases hsome : r.session.writeBuf = []
  · rw [if_neg (not_not.mpr hsome), if_neg fun h => h.2 hsome, settled_stays hstays,
      eventSetWrite_self hserving]
    rfl
  · rw [if_pos hsome, if_pos ⟨hstays, hsome⟩,
      settled_stays (r := { r with wantWrite := true }) hstays]
    rfl

section ReadClient

variable {m : ℕ} {c : Conn} (hentry : p.clients fd = some (some a))
  (hself : p.serving a fd m c = p) (hfd : p.isOpen fd = true)

include hentry hself hfd

/-- A drain that ends with the end of the stream, or a failure. -/
theorem readClient_closed {last : RecvEnd} (hlast : last ≠ .again) (chunks : List Bytes) :
    readClient libc clock p fd (chunks, last) = p.settled a fd m
      (handleRead libc (fun i => clock (m + i)) c chunks last) := by
  have hdrain : recvLoop (some a) fd chunks last p =
      .ok (false, p.remove a fd c.session.toGlobals (m + c.dispatched.length)) := by
    conv_lhs => rw [← hself]
    exact recvLoop_closed hentry hlast chunks _ _ _
  unfold readClient
  rw [clientsAt_of_entry hentry]
  dsimp only
  rw [received_of_open hfd]
  dsimp only
  rw [hdrain]
  cases last with
  | again => exact absurd rfl hlast
  | eof => rfl
  | failed => rfl

/-- A drain that ends with `EAGAIN`: the commands are executed, and the interest is set. -/
theorem readClient_again [LawfulEventQueue K] (hopen : c.status = .connected)
    (hinterest : p.interest fd = some c.wantWrite)
    (chunks : List Bytes) :
    readClient libc clock p fd (chunks, .again) = p.settled a fd m
      (handleRead libc (fun i => clock (m + i)) c chunks .again) := by
  have hdrain : recvLoop (some a) fd chunks .again p =
      .ok (true, p.serving a fd m { c with readBuf := c.readBuf ++ chunks.flatten }) := by
    conv_lhs => rw [← hself]
    exact recvLoop_again chunks
  have hserve := serveLoop_serving libc clock hentry m
    (c := { c with readBuf := c.readBuf ++ chunks.flatten }) hopen (Nat.lt_succ_self _)
  have hwant : (parseLoop libc (fun i => clock (m + i)) ((c.readBuf ++ chunks.flatten).length + 1)
      { c with readBuf := c.readBuf ++ chunks.flatten }).wantWrite = c.wantWrite :=
    wantWrite_parseLoop libc _ _ _
  unfold readClient handleRead
  rw [clientsAt_of_entry hentry]
  dsimp only
  rw [received_of_open hfd]
  dsimp only
  rw [hdrain, running_bind]
  dsimp only
  rw [load_serving, running_bind, foldl_chunks, hserve]
  generalize parseLoop libc (fun i => clock (m + i)) _ _ = r at hwant ⊢
  rw [if_neg (by decide)]
  -- the client may have gone in the loop, or the process may have ended
  by_cases hstays : r.status = .connected
  · rw [serveEnd_stays hstays, running_bind]
    exact interest_serving (hwant ▸ hinterest) hstays
  · rw [if_neg fun h => hstays h.1]
    by_cases hcrashed : r.status = .crashed
    · rw [serveEnd_crashed hcrashed, settled_crashed hcrashed]
      rfl
    · rw [serveEnd_closed hstays hcrashed, settled_closed hstays hcrashed]
      rfl

/-- **`handle_read`** does in memory what it does on the client. -/
theorem readClient_settled [LawfulEventQueue K] (hopen : c.status = .connected)
    (hinterest : p.interest fd = some c.wantWrite)
    (chunks : List Bytes) (last : RecvEnd) :
    readClient libc clock p fd (chunks, last) = p.settled a fd m
      (handleRead libc (fun i => clock (m + i)) c chunks last) := by
  cases last with
  | again => exact readClient_again libc clock hentry hself hfd hopen hinterest chunks
  | eof => exact readClient_closed libc clock hentry hself hfd (by simp) chunks
  | failed => exact readClient_closed libc clock hentry hself hfd (by simp) chunks

end ReadClient

end Read

/-! ### The write handler -/

/-- A client of the server, as an object. -/
def objectOf (fd : ℕ) (c : Client) : ClientObject := ⟨fd, c.readBuf, c.writeBuf, c.closing⟩

section Write

variable {K : Type} [EventQueue K] {p : Process K} {a fd : ℕ} {c : Client} {g : Globals} {n : ℕ}

/-- The loop over the calls of `send` comes to its end, with all sent or with `EAGAIN`. -/
theorem flushLoop_stays {last : SendEnd} {sends : List ℕ}
    (hend : (sendLoop c sends).writeBuf = [] ∨ last = .again) :
    flushLoop (some a) fd sends last (p.put a (objectOf fd c) g n) =
      .ok (true, p.put a (objectOf fd (sendLoop c sends)) g n) := by
  induction sends generalizing c with
  | nil =>
    unfold flushLoop
    rw [load_put, running_bind]
    by_cases hnil : c.writeBuf = []
    · exact if_pos hnil
    · obtain rfl := hend.resolve_left hnil
      exact if_neg hnil
  | cons k ks ih =>
    rw [sendLoop] at hend ⊢
    rw [flushLoop, load_put, running_bind]
    by_cases hnil : c.writeBuf = []
    · rw [if_pos hnil]
      exact if_pos hnil
    · rw [if_neg hnil] at hend ⊢
      refine (if_neg hnil).trans ?_
      rw [store_put, running_bind]
      exact ih hend

/-- It stops at a failure, and the client is closed. -/
theorem flushLoop_closed (hentry : p.clients fd = some (some a)) {sends : List ℕ}
    (hrest : (sendLoop c sends).writeBuf ≠ []) :
    flushLoop (some a) fd sends .failed (p.put a (objectOf fd c) g n) =
      .ok (false, p.remove a fd g n) := by
  induction sends generalizing c with
  | nil =>
    rw [flushLoop, load_put, running_bind]
    refine (if_neg hrest).trans ?_
    rw [objectOf, closeClient_put hentry]
    rfl
  | cons k ks ih =>
    rw [sendLoop] at hrest
    rw [flushLoop, load_put, running_bind]
    by_cases hnil : c.writeBuf = []
    · rw [if_pos hnil] at hrest
      exact absurd hnil hrest
    · rw [if_neg hnil] at hrest
      refine (if_neg hnil).trans ?_
      rw [store_put, running_bind]
      exact ih hrest

section WriteClient

variable (hentry : p.clients fd = some (some a)) (hself : p.put a (objectOf fd c) g n = p)

include hentry hself

/-- The client stays, and its object has what is left. -/
theorem writeClient_stays {sends : List ℕ} {last : SendEnd}
    (hend : (sendLoop c sends).writeBuf = [] ∨ last = .again) :
    writeClient p fd sends last =
      if (sendLoop c sends).writeBuf = [] then
        .ok ((p.put a (objectOf fd (sendLoop c sends)) g n).eventSetWrite fd false)
      else .ok (p.put a (objectOf fd (sendLoop c sends)) g n) := by
  have hloop : flushLoop (some a) fd sends last p =
      .ok (true, p.put a (objectOf fd (sendLoop c sends)) g n) := by
    conv_lhs => rw [← hself]
    exact flushLoop_stays hend
  unfold writeClient
  rw [clientsAt_of_entry hentry]
  dsimp only
  rw [hloop, running_bind]
  dsimp only
  rw [if_neg (by decide), load_put, running_bind]
  rfl

/-- **All is sent**, and the interest in write events is taken back. -/
theorem writeClient_sent {sends : List ℕ} (last : SendEnd)
    (hsent : (sendLoop c sends).writeBuf = []) :
    writeClient p fd sends last =
      .ok ((p.put a (objectOf fd (sendLoop c sends)) g n).eventSetWrite fd false) := by
  rw [writeClient_stays hentry hself (.inl hsent), if_pos hsent]

/-- **Something is left** for the next write event. -/
theorem writeClient_waits {sends : List ℕ} (hrest : (sendLoop c sends).writeBuf ≠ []) :
    writeClient p fd sends .again = .ok (p.put a (objectOf fd (sendLoop c sends)) g n) := by
  rw [writeClient_stays hentry hself (.inr rfl), if_neg hrest]

/-- **A `send` fails**. -/
theorem writeClient_closed {sends : List ℕ} (hrest : (sendLoop c sends).writeBuf ≠ []) :
    writeClient p fd sends .failed = .ok (p.remove a fd g n) := by
  have hloop : flushLoop (some a) fd sends .failed p = .ok (false, p.remove a fd g n) := by
    conv_lhs => rw [← hself]
    exact flushLoop_closed hentry hrest
  unfold writeClient
  rw [clientsAt_of_entry hentry]
  dsimp only
  rw [hloop]
  rfl

end WriteClient

end Write

end Minired
