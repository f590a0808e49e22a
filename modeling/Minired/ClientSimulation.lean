import Minired.ClientPointers

/-!
# The event loop with its pointers

A process `Represents` a server when each client of the server is an object that the map points to,
with the interest that the kernel has registered, and nothing else is registered but the listening
socket. The handlers keep this: a call that is about one descriptor follows the server
(`CallFollows`), and does not take away the registrations of the others, so that the events that are
still to come in a batch find their clients.

**`runBatch_represents`**: a batch either ends the process by an exception of a command, or it comes
to its end, no pointer to nowhere having been used, and the process represents what `serverStep`
makes of the same events. So the processes that a run reaches in front of `event_wait` have what
the runs of `Server` have, and **`write_interest`** is what this says of the interest in write
events.
-/

namespace Minired

variable {K : Type} [EventQueue K]

/-! ### What a process stands for -/

/-- The client at `fd`, in memory at `a` and in the kernel. -/
structure HasClient (p : Process K) (fd a : ℕ) (c : Client) : Prop where
  entry : p.clients fd = some (some a)
  object : p.heap a = some (objectOf fd c)
  interest : p.interest fd = some c.wantWrite
  isOpen : p.isOpen fd = true

/-- The two processes have the same, but for the descriptor `fd` and the address `a`. -/
structure AgreeApart (fd a : ℕ) (p p' : Process K) : Prop where
  listenFd : p'.listenFd = p.listenFd
  clients : ∀ {fd'}, fd' ≠ fd → p'.clients fd' = p.clients fd'
  interest : ∀ {fd'}, fd' ≠ fd → p'.interest fd' = p.interest fd'
  isOpen : ∀ {fd'}, fd' ≠ fd → p'.isOpen fd' = p.isOpen fd'
  heap : ∀ {b}, b ≠ a → p'.heap b = p.heap b

/-- The other clients are what they were. -/
theorem HasClient.frame {p p' : Process K} {fd a fd' a' : ℕ} {c : Client}
    (ha : HasClient p fd' a' c) (hagree : AgreeApart fd a p p') (hfd : fd' ≠ fd)
    (hapart : a' ≠ a) :
    HasClient p' fd' a' c where
  entry := (hagree.clients hfd).trans ha.entry
  object := (hagree.heap hapart).trans ha.object
  interest := (hagree.interest hfd).trans ha.interest
  isOpen := (hagree.isOpen hfd).trans ha.isOpen

/-- **The process represents the server**: each client is an object that the map points to, its
interest is what the kernel has registered, and nothing else is registered but the listening
socket. -/
structure Represents (p : Process K) (s : Server) : Prop where
  running : s.ended = false
  globals : p.globals = s.globals
  served : p.served = s.log.length
  client : ∀ {fd c}, s.clients fd = some c → ∃ a, HasClient p fd a c
  absent : ∀ {fd}, s.clients fd = none →
    p.clients fd = none ∧ (fd ≠ p.listenFd → p.interest fd = none)
  listening : s.clients p.listenFd = none ∧ (p.interest p.listenFd).isSome = true ∧
    p.isOpen p.listenFd = true
  fresh : ∀ a, p.next ≤ a → p.heap a = none

/-- The descriptor is closed, unless it has a client. What is left of a batch is about such
descriptors. -/
def Process.Tracked (p : Process K) (fd : ℕ) : Prop := p.clients fd = none → p.isOpen fd = false

/-- What a call comes to: a process that represents the server `s` and keeps track of the
descriptors, or an exception. -/
inductive CallFollows (p : Process K) (s : Server) : Running (Process K) → Prop
  | goesOn {p' : Process K} (represents : Represents p' s) (listenFd : p'.listenFd = p.listenFd)
      (tracked : ∀ fd, p.Tracked fd → p'.Tracked fd) : CallFollows p s (.ok p')
  | ends : CallFollows p s (.error .uncaught)

/-- One call after the other. -/
theorem CallFollows.bind {p : Process K} {s s' : Server} {r : Running (Process K)}
    (h : CallFollows p s r) {f : Process K → Running (Process K)}
    (hf : ∀ p', Represents p' s → CallFollows p' s' (f p')) : CallFollows p s' (r >>= f) := by
  cases h with
  | ends => exact .ends
  | @goesOn p₁ hrep hlisten htracked =>
    rw [running_bind]
    have hnext := hf p₁ hrep
    generalize f p₁ = r at hnext ⊢
    cases hnext with
    | ends => exact .ends
    | goesOn hrep' hlisten' htracked' =>
      exact .goesOn hrep' (hlisten'.trans hlisten) fun fd ht => htracked' fd (htracked fd ht)

/-- Nothing happens. -/
theorem follows_self {p : Process K} {s : Server} (h : Represents p s) : CallFollows p s (.ok p) :=
  .goesOn h rfl fun _ ht => ht

namespace Represents

variable {p : Process K} {s : Server} (h : Represents p s) {fd a : ℕ} {c : Client}

include h

/-- A client is not the listening socket. -/
theorem ne_listenFd (hc : s.clients fd = some c) : fd ≠ p.listenFd := by
  rintro rfl
  rw [h.listening.1] at hc
  cases hc

/-- The other clients are elsewhere in memory. -/
theorem others (ha : HasClient p fd a c) {fd' : ℕ} {c' : Client} (hne : fd' ≠ fd)
    (hc' : s.clients fd' = some c') : ∃ a', a' ≠ a ∧ HasClient p fd' a' c' := by
  obtain ⟨a', ha'⟩ := h.client hc'
  refine ⟨a', ?_, ha'⟩
  rintro rfl
  have hsame := Option.some.inj (ha.object.symm.trans ha'.object)
  exact hne (congrArg ClientObject.fd hsame).symm

/-- A descriptor in the queue is the listening socket or that of a client. -/
theorem client_of_interest (hreg : (p.interest fd).isSome = true) (hne : fd ≠ p.listenFd) :
    ∃ c, s.clients fd = some c := by
  cases hc : s.clients fd with
  | some c => exact ⟨c, rfl⟩
  | none =>
    rw [(h.absent hc).2 hne] at hreg
    cases hreg

/-- An address where there is an object is not a fresh one. -/
theorem lt_next {obj : ClientObject} (hobj : p.heap a = some obj) : a < p.next := by
  by_contra hfresh
  rw [h.fresh a (Nat.le_of_not_lt hfresh)] at hobj
  cases hobj

/-- A descriptor that is not open is neither that of a client nor the listening socket. -/
theorem free (hfree : p.isOpen fd = false) : s.clients fd = none ∧ fd ≠ p.listenFd := by
  constructor
  · cases hc : s.clients fd with
    | none => rfl
    | some c =>
      obtain ⟨a, ha⟩ := h.client hc
      rw [ha.isOpen] at hfree
      cases hfree
  · rintro rfl
    rw [h.listening.2.2] at hfree
    cases hfree

/-- **A call about one descriptor**: it is enough to say what becomes of its client. -/
theorem changes {p' : Process K} {s' : Server} (hagree : AgreeApart fd a p p')
    (hlisten : fd ≠ p.listenFd)
    (hothers : ∀ {fd' c'}, fd' ≠ fd → s.clients fd' = some c' →
      ∃ a', a' ≠ a ∧ HasClient p fd' a' c')
    (hrunning : s'.ended = false) (hglobals : p'.globals = s'.globals)
    (hserved : p'.served = s'.log.length)
    {left : Option Client} (hclients : s'.clients = Function.update s.clients fd left)
    (hsome : ∀ {c'}, left = some c' → HasClient p' fd a c')
    (hnone : left = none → p'.clients fd = none ∧ p'.interest fd = none)
    (hfresh : ∀ b, p'.next ≤ b → p'.heap b = none) : Represents p' s' where
  running := hrunning
  globals := hglobals
  served := hserved
  client := by
    intro fd' c' hc'
    rw [hclients] at hc'
    by_cases hfd : fd' = fd
    · rw [hfd, Function.update_self] at hc'
      rw [hfd]
      exact ⟨a, hsome hc'⟩
    · -- another client: neither its object nor its interest has changed
      rw [Function.update_of_ne hfd] at hc'
      obtain ⟨a', hapart, ha'⟩ := hothers hfd hc'
      exact ⟨a', ha'.frame hagree hfd hapart⟩
  absent := by
    intro fd' habsent
    rw [hclients] at habsent
    by_cases hfd : fd' = fd
    · rw [hfd, Function.update_self] at habsent
      rw [hfd]
      exact ⟨(hnone habsent).1, fun _ => (hnone habsent).2⟩
    · rw [Function.update_of_ne hfd] at habsent
      obtain ⟨hentry, hinterest⟩ := h.absent habsent
      refine ⟨(hagree.clients hfd).trans hentry, fun hl => ?_⟩
      rw [hagree.listenFd] at hl
      exact (hagree.interest hfd).trans (hinterest hl)
  listening := by
    obtain ⟨habsent, hinterest, hopen⟩ := h.listening
    rw [hagree.listenFd, hagree.interest hlisten.symm, hagree.isOpen hlisten.symm, hclients,
      Function.update_of_ne hlisten.symm]
    exact ⟨habsent, hinterest, hopen⟩
  fresh := hfresh

section

variable [LawfulEventQueue K]

/-- **The client stays**, as `c'`. -/
theorem stays (hc : s.clients fd = some c) (ha : HasClient p fd a c) (c' : Client) (s' : Server)
    (hended : s'.ended = false)
    (hclients : s'.clients = Function.update s.clients fd (some c')) :
    Represents ((p.put a (objectOf fd c') s'.globals s'.log.length).eventSetWrite fd c'.wantWrite)
      s' := by
  have hinterest := LawfulEventQueue.interest_set ha.interest c'.wantWrite
  have hopen := LawfulEventQueue.isOpen_set p.kernel fd c'.wantWrite
  refine h.changes (a := a)
    { listenFd := rfl
      clients := fun _ => rfl
      interest := fun hne => (congrFun hinterest _).trans (Function.update_of_ne hne ..)
      isOpen := fun _ => congrFun hopen _
      heap := fun hne => Function.update_of_ne hne .. }
    (h.ne_listenFd hc) (h.others ha) hended rfl rfl hclients ?_ (fun hleft => nomatch hleft) ?_
  · intro c'' hc''
    obtain rfl := Option.some.inj hc''
    exact ⟨ha.entry, Function.update_self ..,
      (congrFun hinterest fd).trans (Function.update_self ..), (congrFun hopen fd).trans ha.isOpen⟩
  · intro b hb
    exact (Function.update_of_ne ((h.lt_next ha.object).trans_le hb).ne' ..).trans (h.fresh b hb)

/-- **The client leaves.** -/
theorem leaves (hc : s.clients fd = some c) (ha : HasClient p fd a c) (s' : Server)
    (hended : s'.ended = false)
    (hclients : s'.clients = Function.update s.clients fd none) :
    Represents (p.remove a fd s'.globals s'.log.length) s' := by
  have hinterest := LawfulEventQueue.interest_close p.kernel fd
  have hopen := LawfulEventQueue.isOpen_close p.kernel fd
  refine h.changes (a := a)
    { listenFd := rfl
      clients := fun hne => Function.update_of_ne hne ..
      interest := fun hne => (congrFun hinterest _).trans (Function.update_of_ne hne ..)
      isOpen := fun hne => (congrFun hopen _).trans (Function.update_of_ne hne ..)
      heap := fun hne => Function.update_of_ne hne .. }
    (h.ne_listenFd hc) (h.others ha) hended rfl rfl hclients (fun hleft => nomatch hleft) ?_ ?_
  · intro _
    exact ⟨Function.update_self .., (congrFun hinterest fd).trans (Function.update_self ..)⟩
  · intro b hb
    exact (Function.update_of_ne ((h.lt_next ha.object).trans_le hb).ne' ..).trans (h.fresh b hb)

end

end Represents

/-! ### The descriptors of a batch -/

section Tracked

variable [LawfulEventQueue K] {p : Process K} {a fd fd' : ℕ}

/-- A client that is removed leaves its descriptor closed. -/
theorem tracked_remove {g : Globals} {n : ℕ} (h : p.Tracked fd') :
    (p.remove a fd g n).Tracked fd' := by
  intro hnone
  refine (congrFun (LawfulEventQueue.isOpen_close p.kernel fd) fd').trans ?_
  unfold Process.remove at hnone
  dsimp only at hnone
  by_cases hfd : fd' = fd
  · rw [hfd, Function.update_self]
  · rw [Function.update_of_ne hfd] at hnone ⊢
    exact h hnone

/-- `event_set_write` opens and closes nothing. -/
theorem tracked_eventSetWrite (wantWrite : Bool) (h : p.Tracked fd') :
    (p.eventSetWrite fd wantWrite).Tracked fd' := fun hnone =>
  (congrFun (LawfulEventQueue.isOpen_set p.kernel fd wantWrite) fd').trans (h hnone)

/-- A new client has a descriptor of its own. -/
theorem tracked_acceptClient {accepted : Option ℕ} (h : p.Tracked fd') :
    (acceptClient p accepted).Tracked fd' := by
  rcases accepted with _ | cfd
  · exact h
  unfold acceptClient
  dsimp only [Process.alloc]
  split_ifs
  · exact h
  · intro hnone
    refine (congrFun (LawfulEventQueue.isOpen_add p.kernel cfd) fd').trans ?_
    dsimp only [Process.eventAddRead] at hnone
    by_cases hfd : fd' = cfd
    · rw [hfd, Function.update_self] at hnone
      cases hnone
    · rw [Function.update_of_ne hfd] at hnone ⊢
      exact h hnone

end Tracked

/-! ### Each handler follows the server -/

section Handlers

variable [LawfulEventQueue K] {p : Process K} {s : Server} (h : Represents p s) {fd : ℕ}

include h

/-- **`handle_accept`** with a descriptor that is not open. -/
theorem acceptClient_represents {cfd : ℕ} (hfree : p.isOpen cfd = false) :
    Represents (acceptClient p (some cfd)) (handleAccept s cfd) := by
  obtain ⟨hnone, hlisten⟩ := h.free hfree
  have hinterest := LawfulEventQueue.interest_add ((h.absent hnone).2 hlisten)
  have hopen := LawfulEventQueue.isOpen_add p.kernel cfd
  unfold acceptClient handleAccept
  rw [hnone, if_neg (by decide)]
  dsimp only
  rw [hfree, if_neg (by decide)]
  dsimp only [Process.alloc, Process.eventAddRead]
  refine h.changes (a := p.next)
    { listenFd := rfl
      clients := fun hne => Function.update_of_ne hne ..
      interest := fun hne => (congrFun hinterest _).trans (Function.update_of_ne hne ..)
      isOpen := fun hne => (congrFun hopen _).trans (Function.update_of_ne hne ..)
      heap := fun hne => Function.update_of_ne hne .. }
    hlisten ?_ h.running h.globals h.served rfl ?_ (fun hleft => nomatch hleft) ?_
  · -- the new object is not where the others are
    intro fd' c' _ hc'
    obtain ⟨a', ha'⟩ := h.client hc'
    exact ⟨a', (h.lt_next ha'.object).ne, ha'⟩
  · intro c' hc'
    obtain rfl := Option.some.inj hc'
    exact ⟨Function.update_self .., Function.update_self ..,
      (congrFun hinterest cfd).trans (Function.update_self ..),
      (congrFun hopen cfd).trans (Function.update_self ..)⟩
  · intro b hb
    have hlt : p.next < b := hb
    exact (Function.update_of_ne hlt.ne' ..).trans (h.fresh b hlt.le)

variable (libc : Libc) (clock : ℕ → Int64)

omit h [EventQueue K] [LawfulEventQueue K] in
/-- A client that is no longer connected is closed, unless the process has ended. -/
theorem settle_closed {c : Client} {why : ConnStatus} (hstays : why ≠ .connected)
    (hcrashed : why ≠ .crashed) : settle s fd c why = clientClose s fd c why := by
  cases why with
  | connected => exact absurd rfl hstays
  | crashed => exact absurd rfl hcrashed
  | peerClosed => rfl
  | protocolError => rfl
  | quit => rfl

/-- What `handle_read` leaves is what becomes of the client. -/
theorem settled_follows {a : ℕ} {c : Client} (hc : s.clients fd = some c)
    (ha : HasClient p fd a c) (r : Conn) {s₁ : Server} {c' : Client}
    (hended : s₁.ended = false) (hclients : s₁.clients = s.clients)
    (hglobals : s₁.globals = r.session.toGlobals)
    (hlog : s₁.log.length = s.log.length + r.dispatched.length)
    (hobj : objectOf fd c' = ⟨fd, r.readBuf, r.session.writeBuf, r.session.closing⟩)
    (hwant : c'.wantWrite = r.wantWrite) :
    CallFollows p (settle s₁ fd c' r.status) (p.settled a fd s.log.length r) := by
  by_cases hstays : r.status = .connected
  · -- the client stays
    have hrep := h.stays hc ha c' (settle s₁ fd c' .connected) hended (by rw [← hclients]; rfl)
    rw [hstays, settled_stays hstays, ← hwant]
    have hserving : p.serving a fd s.log.length r =
        p.put a (objectOf fd c') s₁.globals s₁.log.length := by
      rw [hobj, hglobals, hlog]
      rfl
    rw [hserving]
    exact .goesOn hrep rfl fun fd' ht => tracked_eventSetWrite (p := p.put a _ _ _) _ ht
  · by_cases hcrashed : r.status = .crashed
    · rw [settled_crashed hcrashed]
      exact .ends
    · -- it is closed, by the server or by the peer
      have hrep := h.leaves hc ha (clientClose s₁ fd c' r.status) hended (by rw [← hclients]; rfl)
      rw [settle_closed hstays hcrashed, settled_closed hstays hcrashed, ← hglobals, ← hlog]
      exact .goesOn hrep rfl fun fd' ht => tracked_remove ht

/-- **`handle_read`** of a client that is there. -/
theorem readClient_follows {c : Client} (hc : s.clients fd = some c) (chunks : List Bytes)
    (last : RecvEnd) :
    CallFollows p (serverRead libc clock s fd c chunks last)
      (readClient libc clock p fd (chunks, last)) := by
  obtain ⟨a, ha⟩ := h.client hc
  have hself : p.serving a fd s.log.length (s.conn c) = p := by
    have hput := put_self (p := p) ha.object
    rw [h.globals, h.served] at hput
    exact hput
  rw [readClient_settled libc clock ha.entry hself ha.isOpen rfl ha.interest]
  refine settled_follows h hc ha _ h.running rfl rfl ?_ rfl rfl
  dsimp only
  rw [List.length_append, List.length_map, parsedBuffers, List.length_map, List.length_range]

/-- **`handle_read`** of a descriptor that has been closed: the null pointer is taken out of the map
before it is used. -/
theorem readClient_gone (hnone : s.clients fd = none) (hne : fd ≠ p.listenFd)
    (hclosed : p.isOpen fd = false) (read : List Bytes × RecvEnd) :
    readClient libc clock p fd read = .ok p := by
  obtain ⟨hentry, hinterest⟩ := h.absent hnone
  have hclients : Function.update (Function.update p.clients fd (some none)) fd none =
      p.clients := by
    rw [Function.update_idem, ← hentry, Function.update_eq_self]
  have hdel : EventQueue.eventDel p.kernel fd = p.kernel :=
    LawfulEventQueue.del_closed hclosed (hinterest hne)
  have hat : p.clientsAt fd =
      (none, { p with clients := Function.update p.clients fd (some none) }) := by
    unfold Process.clientsAt
    rw [hentry]
  have hfailed : Process.received { p with clients := Function.update p.clients fd (some none) } fd
      read = ([], .failed) := if_neg (by rw [hclosed]; decide)
  -- `delete` of a null pointer does nothing, and the entry is erased
  have hclose : closeClient { p with clients := Function.update p.clients fd (some none) } fd =
      .ok p := by
    unfold closeClient Process.eventDel
    dsimp only
    rw [Function.update_self, hdel]
    show Except.ok { p with clients := Function.update _ fd none } = _
    rw [hclients]
  unfold readClient
  rw [hat]
  dsimp only
  rw [hfailed]
  dsimp only
  rw [recvLoop, hclose]
  rfl

/-- **`handle_write`.** -/
theorem writeClient_follows {c : Client} (hc : s.clients fd = some c) (sends : List ℕ)
    (last : SendEnd) :
    CallFollows p (serverWrite s fd c sends last) (writeClient p fd sends last) := by
  obtain ⟨a, ha⟩ := h.client hc
  have hself : p.put a (objectOf fd c) s.globals s.log.length = p := by
    have hput := put_self (p := p) ha.object
    rwa [h.globals, h.served] at hput
  unfold serverWrite
  dsimp only
  split_ifs with hsent
  · rw [writeClient_sent ha.entry hself last hsent]
    have hrep := h.stays hc ha { sendLoop c sends with wantWrite := false }
      { s with
        clients := Function.update s.clients fd
          (some { sendLoop c sends with wantWrite := false }) }
      h.running rfl
    exact .goesOn hrep rfl fun fd' ht => tracked_eventSetWrite (p := p.put a _ _ _) _ ht
  · cases last with
    | again =>
      rw [writeClient_waits ha.entry hself hsent]
      -- the interest is still there, so nothing is asked for anew
      have hwant := (sendLoop_interest c sends).2
      have hrep := h.stays hc ha (sendLoop c sends)
        { s with clients := Function.update s.clients fd (some (sendLoop c sends)) } h.running rfl
      rw [hwant, eventSetWrite_self (p := p.put a _ _ _) ha.interest] at hrep
      exact .goesOn hrep rfl fun _ ht => ht
    | failed =>
      rw [writeClient_closed ha.entry hself hsent]
      exact .goesOn (h.leaves hc ha (clientClose s fd (sendLoop c sends) .peerClosed) h.running rfl)
        rfl fun fd' ht => tracked_remove ht

/-- The call of `handle_read`, if there is one: for a client, or for a descriptor that has been
closed since `event_wait` returned. -/
theorem pollRead_follows (hne : fd ≠ p.listenFd) {read : Option (List Bytes × RecvEnd)}
    (htracked : read.isSome = true → p.Tracked fd) :
    CallFollows p (readReady libc clock s fd read) (pollRead libc clock p fd read) := by
  rcases read with _ | ⟨chunks, last⟩
  · exact follows_self h
  unfold readReady pollRead
  dsimp only
  cases hc : s.clients fd with
  | none =>
    rw [readClient_gone h libc clock hc hne (htracked rfl (h.absent hc).1)]
    exact follows_self h
  | some c => exact readClient_follows h libc clock hc chunks last

/-- The call of `handle_write`, if there is one: a client that `handle_read` has closed is not in
the map any more. -/
theorem pollWrite_follows (write : Option (List ℕ × SendEnd)) :
    CallFollows p (writeReady s fd write) (pollWrite p fd write) := by
  rcases write with _ | ⟨sends, last⟩
  · exact follows_self h
  unfold writeReady pollWrite
  dsimp only
  cases hc : s.clients fd with
  | none =>
    rw [(h.absent hc).1, if_neg (by decide)]
    exact follows_self h
  | some c =>
    obtain ⟨a, ha⟩ := h.client hc
    rw [ha.entry]
    exact writeClient_follows h hc sends last

end Handlers

/-! ### The loop follows the server -/

section Loop

variable [LawfulEventQueue K] (libc : Libc) (clock : ℕ → Int64) {p : Process K} {s : Server}

/-- The event of the listening socket. -/
theorem acceptClient_follows (h : Represents p s) (accepted : Option ℕ) :
    ∃ events : List ServerEvent, CallFollows p (events.foldl (serverStep libc clock) s)
      (.ok (acceptClient p accepted)) := by
  rcases accepted with _ | cfd
  · exact ⟨[], follows_self h⟩
  cases hfree : p.isOpen cfd with
  | true =>
    refine ⟨[], ?_⟩
    rw [acceptClient, hfree]
    exact follows_self h
  | false =>
    refine ⟨[.accept cfd], ?_⟩
    have hstep : serverStep libc clock s (.accept cfd) = handleAccept s cfd :=
      if_neg (by rw [h.running]; decide)
    have hlisten : (acceptClient p (some cfd)).listenFd = p.listenFd := by
      rw [acceptClient, hfree]
      rfl
    rw [List.foldl_cons, List.foldl_nil, hstep]
    exact .goesOn (acceptClient_represents h hfree) hlisten fun _ ht => tracked_acceptClient ht

/-- What is left of a batch: the descriptors that are to be read from have clients or are closed. -/
def Process.Pending (p : Process K) (batch : List PollEvent) : Prop :=
  ∀ e ∈ batch, e.fd ≠ p.listenFd → e.read.isSome = true → p.Tracked e.fd

/-- **One event** of a batch. -/
theorem runEvent_follows (h : Represents p s) {e : PollEvent} {batch : List PollEvent}
    (hpending : p.Pending (e :: batch)) :
    ∃ events : List ServerEvent, CallFollows p (events.foldl (serverStep libc clock) s)
      (runEvent libc clock p e) := by
  unfold runEvent
  by_cases hlisten : e.fd = p.listenFd
  · -- a new client, if `accept` returns one
    rw [if_pos hlisten]
    exact acceptClient_follows libc clock h e.accepted
  · rw [if_neg hlisten]
    have hread := pollRead_follows h libc clock hlisten (hpending e List.mem_cons_self hlisten)
    exact ⟨[.ready e.fd e.read e.write],
      hread.bind fun p' hrep => pollWrite_follows hrep e.write⟩

/-- **A batch**, in any order. -/
theorem runBatch_follows (h : Represents p s) {batch : List PollEvent}
    (hpending : p.Pending batch) :
    (∃ p' events, runBatch libc clock p batch = .ok p' ∧
      Represents p' (List.foldl (serverStep libc clock) s events)) ∨
    runBatch libc clock p batch = .error .uncaught := by
  induction batch generalizing p s with
  | nil => exact .inl ⟨p, [], rfl, h⟩
  | cons e batch ih =>
    obtain ⟨events, hfollows⟩ := runEvent_follows libc clock h hpending
    rw [runBatch, List.foldlM_cons]
    generalize runEvent libc clock p e = r at hfollows ⊢
    cases hfollows with
    | ends => exact .inr rfl
    | @goesOn p₁ hrep hlisten htracked =>
      -- the descriptors of the other events are still those of clients, or closed
      have hrest : p₁.Pending batch := by
        intro e' he' hne hread
        rw [hlisten] at hne
        exact htracked _ (hpending e' (List.mem_cons_of_mem e he') hne hread)
      rcases ih hrep hrest with ⟨p', more, hrun, hrep'⟩ | hcrash
      · refine .inl ⟨p', events ++ more, hrun, ?_⟩
        rwa [List.foldl_append]
      · exact .inr hcrash

/-- The events for reading that the kernel reports are about clients. -/
theorem pending_of_reports (h : Represents p s) {batch : List PollEvent}
    (hreports : EventQueue.Reports p.kernel batch) : p.Pending batch := by
  intro e he hne hread hnone
  obtain ⟨c, hc⟩ := h.client_of_interest (LawfulEventQueue.reports_read hreports he hread) hne
  obtain ⟨a, ha⟩ := h.client hc
  rw [ha.entry] at hnone
  cases hnone

/-- The process in front of the loop. -/
theorem represents_start (g : Globals) (listenFd : ℕ) (isOpen : ℕ → Bool) :
    Represents (.start g listenFd isOpen : Process K) (.start g) := by
  have hempty : EventQueue.interest (EventQueue.create isOpen : K) listenFd = none :=
    congrFun (LawfulEventQueue.interest_create isOpen) listenFd
  have hinterest := LawfulEventQueue.interest_add hempty
  rw [LawfulEventQueue.interest_create] at hinterest
  have hopen := LawfulEventQueue.isOpen_add (EventQueue.create isOpen : K) listenFd
  exact {
    running := rfl
    globals := rfl
    served := rfl
    client := fun hc => by cases hc
    absent := fun _ => ⟨rfl, fun hne => (congrFun hinterest _).trans (Function.update_of_ne hne ..)⟩
    listening := ⟨rfl,
      congrArg Option.isSome ((congrFun hinterest listenFd).trans (Function.update_self ..)),
      (congrFun hopen listenFd).trans (Function.update_self ..)⟩
    fresh := fun _ _ => rfl }

/-- **Every process that comes to `event_wait`** represents a run of the server. -/
theorem waits_represents {g : Globals} {listenFd : ℕ} {isOpen : ℕ → Bool}
    (h : Waits libc clock g listenFd isOpen p) :
    ∃ events, Represents p (serverRun libc clock g events) := by
  induction h with
  | start => exact ⟨[], represents_start g listenFd isOpen⟩
  | batch _ hreports hrun ih =>
    obtain ⟨events, hrep⟩ := ih
    rcases runBatch_follows libc clock hrep (pending_of_reports hrep hreports) with
      ⟨p', more, hok, hrep'⟩ | hcrash
    · obtain rfl := Except.ok.inj (hok.symm.trans hrun)
      refine ⟨events ++ more, ?_⟩
      rwa [serverRun, List.foldl_append]
    · rw [hcrash] at hrun
      cases hrun

/-- **The clients in front of `event_wait`**: the map points to an object for every one of them, and
events for writing are asked for if and only if its `write_buf` is not empty. -/
theorem interest_of_waits {g : Globals} {listenFd : ℕ} {isOpen : ℕ → Bool}
    (h : Waits libc clock g listenFd isOpen p) {fd : ℕ} {c : Option ℕ}
    (hc : p.clients fd = some c) :
    ∃ a obj, c = some a ∧ p.heap a = some obj ∧ obj.fd = fd ∧
      ∃ w, p.interest fd = some w ∧ (w = true ↔ obj.writeBuf ≠ []) := by
  obtain ⟨events, hrep⟩ := waits_represents libc clock h
  cases hclient : (serverRun libc clock g events).clients fd with
  | none =>
    rw [(hrep.absent hclient).1] at hc
    cases hc
  | some client =>
    obtain ⟨a, ha⟩ := hrep.client hclient
    obtain rfl := Option.some.inj (ha.entry.symm.trans hc)
    exact ⟨a, _, rfl, ha.object, rfl, _, ha.interest,
      interest_serverRun libc clock g events fd client hclient⟩

/-- **The handlers** use no pointer that is null or points to a deleted client, and their loops end:
only an exception of a command stops them. -/
theorem uncaught_of_error {g : Globals} {listenFd : ℕ} {isOpen : ℕ → Bool}
    (h : Waits libc clock g listenFd isOpen p) {batch : List PollEvent} {why : Halt}
    (hreports : EventQueue.Reports p.kernel batch)
    (hrun : runBatch libc clock p batch = .error why) : why = .uncaught := by
  obtain ⟨events, hrep⟩ := waits_represents libc clock h
  rcases runBatch_follows libc clock hrep (pending_of_reports hrep hreports) with
    ⟨p', _, hok, -⟩ | hcrash
  · rw [hok] at hrun
    cases hrun
  · rw [hcrash] at hrun
    exact (Except.error.inj hrun).symm

end Loop

end Minired
