import Minired.Replies
import Minired.Delivery

/-!
# The event loop

`server_run` waits for events and handles one descriptor after the other: it accepts a client,
runs `handle_read` on one, and `handle_write`. `Server` is its state, the clients by their
descriptors and the globals; what the kernel answers is in the `ServerEvent`. The thread of the
sweep is not part of the loop.

Some fields are ghosts, which no code reads: a client has a serial number, since descriptors
are used again, and its `received` and `sent` are what has gone over the socket; `log` lists
the calls of `dispatch_command`, each with what `read_buf` held; `closed` keeps the clients as
they were when they were closed.

`replay` is what the loop is for: the commands of the log executed one after the other, by
nobody in particular, and the reply of each. `event_loop_correct` compares the two.
-/

namespace Minired

open Appending Relational

/-- `Client`. -/
structure Client where
  readBuf : Bytes
  writeBuf : Bytes
  closing : Bool
  wantWrite : Bool
  serial : ℕ
  received : Bytes
  sent : Bytes

/-- One call of `dispatch_command`: the client, and its `read_buf`. -/
structure Dispatch where
  serial : ℕ
  buffer : Bytes

/-- The arguments of the call. -/
def Dispatch.args (d : Dispatch) : List Bytes := (respParse d.buffer).args

/-- The bytes that the call consumes. -/
def Dispatch.frame (d : Dispatch) : Bytes := d.buffer.take (respParse d.buffer).consumed

/-- `Server`, and the globals. -/
structure Server where
  globals : Globals
  clients : ℕ → Option Client
  ended : Bool
  accepted : ℕ
  log : List Dispatch
  closed : List (Client × ConnStatus)

/-- The last `send` of a writable event, if there is something left to send. -/
inductive SendEnd
  | again
  | failed

/-- What `event_wait` and the calls behind it bring: a descriptor for a new client, or for a
descriptor what `recv` delivers, when it is readable, and how many bytes each `send` takes, when
it is writable. -/
inductive ServerEvent
  | accept (fd : ℕ)
  | ready (fd : ℕ) (read : Option (List Bytes × RecvEnd)) (write : Option (List ℕ × SendEnd))

/-- The server before its first client. -/
def Server.start (g : Globals) : Server := ⟨g, fun _ => none, false, 0, [], []⟩

/-- `handle_accept`. The kernel gives a descriptor that is not in use. -/
def handleAccept (s : Server) (fd : ℕ) : Server :=
  if (s.clients fd).isSome then s
  else
    { s with
      clients := Function.update s.clients fd (some ⟨[], [], false, false, s.accepted, [], []⟩)
      accepted := s.accepted + 1 }

/-- `client_close`: the client is deleted, with its buffers. -/
def clientClose (s : Server) (fd : ℕ) (c : Client) (why : ConnStatus) : Server :=
  { s with clients := Function.update s.clients fd none, closed := s.closed ++ [(c, why)] }

/-- A client and the globals, for `handle_read`. -/
def Server.conn (s : Server) (c : Client) : Conn where
  session := { s.globals with writeBuf := c.writeBuf, closing := c.closing }
  readBuf := c.readBuf
  dispatched := []
  status := .connected
  wantWrite := c.wantWrite

variable (libc : Libc) (clock : ℕ → Int64)

/-- What `read_buf` held at each of the first `n` calls of `dispatch_command` in the loop. -/
def parsedBuffers (c : Conn) (n : ℕ) : List Bytes :=
  (List.range n).map fun i => (parseLoop libc clock i c).readBuf

/-- What becomes of a client: it stays, the process ends, or it is closed. -/
def settle (s : Server) (fd : ℕ) (c : Client) : ConnStatus → Server
  | .connected => { s with clients := Function.update s.clients fd (some c) }
  | .crashed => { s with clients := fun _ => none, ended := true }
  | why => clientClose s fd c why

/-- `handle_read` on a client of the server. The clock is read once for each command of the
log. -/
def serverRead (s : Server) (fd : ℕ) (c : Client) (chunks : List Bytes) (last : RecvEnd) :
    Server :=
  let times := fun n => clock (s.log.length + n)
  let r := handleRead libc times (s.conn c) chunks last
  let buffers := parsedBuffers libc times
    { s.conn c with readBuf := c.readBuf ++ chunks.flatten } r.dispatched.length
  let c := { c with
    readBuf := r.readBuf
    writeBuf := r.session.writeBuf
    closing := r.session.closing
    wantWrite := r.wantWrite
    received := c.received ++ chunks.flatten }
  let s := { s with
    globals := r.session.toGlobals
    log := s.log ++ buffers.map (Dispatch.mk c.serial) }
  settle s fd c r.status

/-- The loop of `handle_write`, over the numbers of bytes that `send` takes. -/
def sendLoop (c : Client) : List ℕ → Client
  | [] => c
  | n :: ns =>
    if c.writeBuf = [] then c
    else
      sendLoop { c with writeBuf := c.writeBuf.drop n, sent := c.sent ++ c.writeBuf.take n } ns

/-- `handle_write`. -/
def serverWrite (s : Server) (fd : ℕ) (c : Client) (sends : List ℕ) (last : SendEnd) : Server :=
  let c := sendLoop c sends
  if c.writeBuf = [] then
    { s with clients := Function.update s.clients fd (some { c with wantWrite := false }) }
  else
    match last with
    | .again => { s with clients := Function.update s.clients fd (some c) }
    | .failed => clientClose s fd c .peerClosed

/-- The call of `handle_read`, when the descriptor is readable. Events come for clients that the
server has. -/
def readReady (s : Server) (fd : ℕ) : Option (List Bytes × RecvEnd) → Server
  | none => s
  | some (chunks, last) =>
    match s.clients fd with
    | none => s
    | some c => serverRead libc clock s fd c chunks last

/-- The call of `handle_write`, when the descriptor is writable and the client is still there. -/
def writeReady (s : Server) (fd : ℕ) : Option (List ℕ × SendEnd) → Server
  | none => s
  | some (sends, last) =>
    match s.clients fd with
    | none => s
    | some c => serverWrite s fd c sends last

/-- An iteration of `server_run`. -/
def serverStep (s : Server) : ServerEvent → Server
  | .accept fd => if s.ended then s else handleAccept s fd
  | .ready fd read write => writeReady (readReady libc clock s fd read) fd write

/-- A run of `server_run`. -/
def serverRun (g : Globals) (events : List ServerEvent) : Server :=
  events.foldl (serverStep libc clock) (.start g)

/-! ### Executing the log -/

/-- The replies of commands executed one after the other, and the globals behind them. -/
def replay (n : ℕ) (g : Globals) : List (List Bytes) → List Bytes × Globals
  | [] => ([], g)
  | cmd :: cmds =>
    let s := (exec (dispatchCommand libc (clock n) cmd)
      { g with writeBuf := [], closing := false }).2
    let r := replay (n + 1) s.toGlobals cmds
    (s.writeBuf :: r.1, r.2)

/-- What belongs to one client of pieces that go with the calls of the log. -/
def piecesOf (serial : ℕ) (log : List Dispatch) (pieces : List Bytes) : Bytes :=
  (((log.zip pieces).filter fun p => p.1.serial = serial).map Prod.snd).flatten

/-- The replies to the commands of a client. -/
def Server.repliesTo (g : Globals) (s : Server) (serial : ℕ) : Bytes :=
  piecesOf serial s.log (replay libc clock 0 g (s.log.map Dispatch.args)).1

/-- The bytes that the commands of a client consumed. -/
def Server.consumedBy (s : Server) (serial : ℕ) : Bytes :=
  piecesOf serial s.log (s.log.map Dispatch.frame)

/-- Commands are replayed one after the other. -/
theorem replay_append (n : ℕ) (g : Globals) (cmds more : List (List Bytes)) :
    replay libc clock n g (cmds ++ more) =
      let r := replay libc clock n g cmds
      let r' := replay libc clock (n + cmds.length) r.2 more
      (r.1 ++ r'.1, r'.2) := by
  induction cmds generalizing n g with
  | nil => rfl
  | cons cmd cmds ih =>
    rw [List.cons_append, replay, replay, ih, List.length_cons, Nat.add_assoc, Nat.add_comm 1]
    rfl

/-- A clock that has gone on is one that starts later. -/
theorem replay_shift (m n : ℕ) (g : Globals) (cmds : List (List Bytes)) :
    replay libc (fun i => clock (m + i)) n g cmds = replay libc clock (m + n) g cmds := by
  induction cmds generalizing n g with
  | nil => rfl
  | cons cmd cmds ih => rw [replay, replay, ih, Nat.add_assoc]

/-- There is one reply for each command. -/
theorem length_replay (n : ℕ) (g : Globals) (cmds : List (List Bytes)) :
    (replay libc clock n g cmds).1.length = cmds.length := by
  induction cmds generalizing n g with
  | nil => rfl
  | cons cmd cmds ih => rw [replay, List.length_cons, List.length_cons, ih]

/-! ### The pieces of a client -/

section Pieces

variable {serial : ℕ} {log more : List Dispatch} {pieces pieces' : List Bytes}

/-- The pieces of a client, log by log. -/
theorem piecesOf_append (hlen : log.length = pieces.length) :
    piecesOf serial (log ++ more) (pieces ++ pieces') =
      piecesOf serial log pieces ++ piecesOf serial more pieces' := by
  rw [piecesOf, List.zip_append hlen, List.filter_append, List.map_append, List.flatten_append]
  rfl

/-- Calls for the client alone. -/
theorem piecesOf_own (hlen : log.length = pieces.length) (hown : ∀ d ∈ log, d.serial = serial) :
    piecesOf serial log pieces = pieces.flatten := by
  have hall : (log.zip pieces).filter (fun p => p.1.serial = serial) = log.zip pieces := by
    refine List.filter_eq_self.mpr fun p hp => ?_
    exact decide_eq_true (hown p.1 (List.of_mem_zip hp).1)
  rw [piecesOf, hall, List.map_snd_zip hlen.ge]

/-- Calls for others. -/
theorem piecesOf_others (hothers : ∀ d ∈ log, d.serial ≠ serial) :
    piecesOf serial log pieces = [] := by
  have hnone : (log.zip pieces).filter (fun p => p.1.serial = serial) = [] := by
    refine List.filter_eq_nil_iff.mpr fun p hp => ?_
    exact fun h => hothers p.1 (List.of_mem_zip hp).1 (of_decide_eq_true h)
  rw [piecesOf, hnone]
  rfl

end Pieces

/-! ### One command -/

/-- Whatever waits in `write_buf`, a command does the same, and appends something. -/
theorem writes_dispatchCommand (now : Int64) (cmd : List Bytes) :
    Writes Session.at (fun _ => True) (fun _ r => cmd ≠ [] → r ≠ [])
      (dispatchCommand libc now cmd) := by
  cases cmd with
  | nil => exact Writes.pure fun h => absurd rfl h
  | cons name args =>
    cases hfind : findCommand name with
    | some c =>
      rw [dispatchCommand_of_find hfind]
      refine (replies_handler libc now c (name :: args)).mono (fun _ _ => trivial) ?_
      -- every reply has a first byte, its mark
      rintro _ _ ⟨v, rfl⟩ _ hnil
      have hhead := v.head_encode
      rw [hnil] at hhead
      cases hhead
    | none =>
      -- an unknown command is answered with an error, which is not empty either
      refine (@emits_unknown true libc now name hfind args).mono (fun _ _ => trivial) ?_
      rintro _ _ rfl _ hnil
      cases hnil

/-- **The frame** of a command: what waits in `write_buf` stays in front of the reply. -/
theorem dispatchCommand_frame (now : Int64) (cmd : List Bytes) (s : Session) :
    let r := exec (dispatchCommand libc now cmd) { s with writeBuf := [] }
    exec (dispatchCommand libc now cmd) s =
        (r.1, { r.2 with writeBuf := s.writeBuf ++ r.2.writeBuf }) ∧
      (cmd ≠ [] → r.1 = .ok () → r.2.writeBuf ≠ []) := by
  intro r
  obtain ⟨res, t', w, hexec, hends⟩ := writes_dispatchCommand libc now cmd (s.toGlobals, s.closing)
  -- the command with an empty `write_buf`, and with the one it finds
  have hr : r = (res, Session.at t' ([] ++ w)) := hexec []
  have hs := hexec s.writeBuf
  rw [Session.at_eq] at hs
  rw [hr, hs]
  refine ⟨rfl, fun hcmd hok => ?_⟩
  obtain rfl : res = .ok () := hok
  exact hends hcmd

/-! ### The loop of `handle_read` -/

/-- The arguments that the parser finds at the front of each buffer. -/
def argsOf (buffers : List Bytes) : List (List Bytes) := buffers.map fun b => (respParse b).args

/-- The bytes that it takes off the front of each buffer. -/
def framesOf (buffers : List Bytes) : Bytes :=
  buffers.flatMap fun b => b.take (respParse b).consumed

/-- The line that a client with malformed input gets. -/
def protocolErrorLine : Bytes := ascii "-ERR protocol error" ++ crlf

/-- The server ends the connection, not the peer. -/
def ConnStatus.IsOrderly (why : ConnStatus) : Prop := why = .quit ∨ why = .protocolError

/-- Whether a connection ends orderly can be computed. -/
instance (why : ConnStatus) : Decidable why.IsOrderly := inferInstanceAs (Decidable (_ ∨ _))

/-- What belongs behind the replies when the connection ends so. -/
def ConnStatus.lastLine (why : ConnStatus) : Bytes :=
  if why = .protocolError then protocolErrorLine else []

/-- Only a protocol error is answered with a line. -/
theorem ConnStatus.lastLine_of_ne {why : ConnStatus} (h : why ≠ .protocolError) :
    why.lastLine = [] := if_neg h

/-- What the loop has done, from the connection `c` to `r`, when `read_buf` held `buffers` at the
calls of `dispatch_command`. -/
structure Served (c : Conn) (buffers : List Bytes) (r : Conn) : Prop where
  buffers_eq : parsedBuffers libc clock c buffers.length = buffers
  dispatched : r.dispatched = c.dispatched ++ argsOf buffers
  globals : r.session.toGlobals =
    (replay libc clock c.dispatched.length c.session.toGlobals (argsOf buffers)).2
  writeBuf : r.session.writeBuf = c.session.writeBuf ++
    ((replay libc clock c.dispatched.length c.session.toGlobals (argsOf buffers)).1.flatten ++
      r.status.lastLine)
  readBuf : r.status ≠ .crashed → c.readBuf = framesOf buffers ++ r.readBuf
  closing : r.status = .connected → r.session.closing = false
  status : r.status ≠ .peerClosed
  quit : r.status = .quit →
    (replay libc clock c.dispatched.length c.session.toGlobals (argsOf buffers)).1.flatten ≠ []

/-- A loop that stops in front of its first command, with or without an error. -/
theorem served_nil {c r : Conn} (hclosing : c.session.closing = false)
    (hstatus : r.status = .connected ∨ r.status = .protocolError)
    (hr : r = { c with
      session := { c.session with
        writeBuf := c.session.writeBuf ++ r.status.lastLine }
      status := r.status }) : Served libc clock c [] r := by
  -- the connection is open, or ended by the protocol error
  have hne : ∀ why, why ≠ .connected → why ≠ .protocolError → r.status ≠ why := by
    rintro why hopen herror rfl
    exact hstatus.elim hopen herror
  refine ⟨rfl, ?_, ?_, ?_, fun _ => ?_, fun _ => ?_, hne _ (by decide) (by decide), fun h => ?_⟩
  · rw [hr]
    exact (List.append_nil _).symm
  · rw [hr]
    rfl
  · conv_lhs => rw [hr]
    rfl
  · rw [hr]
    rfl
  · rw [hr]
    exact hclosing
  · exact absurd h (hne _ (by decide) (by decide))

/-- The loop may stop at an open connection. -/
theorem served_stop {c : Conn} (hopen : c.status = .connected)
    (hclosing : c.session.closing = false) : Served libc clock c [] c := by
  refine served_nil libc clock hclosing (Or.inl hopen) ?_
  rw [hopen, ConnStatus.lastLine_of_ne (by decide), List.append_nil]
  rcases c with ⟨s, _, _, _, _⟩
  cases hopen
  rfl

/-- A command of an open client, next to the same command of nobody in particular. -/
theorem exec_open (now : Int64) (cmd : List Bytes) {s : Session} (hclosing : s.closing = false) :
    let run := exec (dispatchCommand libc now cmd)
      { s.toGlobals with writeBuf := [], closing := false }
    exec (dispatchCommand libc now cmd) s =
        (run.1, { run.2 with writeBuf := s.writeBuf ++ run.2.writeBuf }) ∧
      (run.1 = .ok () → run.2.closing = true → run.2.writeBuf ≠ []) := by
  intro run
  obtain ⟨hexec, hne⟩ := dispatchCommand_frame libc now cmd s
  -- the client is open, as nobody in particular is
  have hfresh : ({ s.toGlobals with writeBuf := [], closing := false } : Session) =
      { s with writeBuf := [] } := by rw [hclosing]
  have hrun : run = exec (dispatchCommand libc now cmd) { s with writeBuf := [] } := by
    rw [← hfresh]
  rw [hrun]
  refine ⟨hexec, fun hok hquit => hne ?_ hok⟩
  -- no arguments, no command, and nobody has said `QUIT`
  rintro rfl
  exact absurd (hclosing.symm.trans hquit) (by decide)

/-- What a single command leaves of the connection, its reply behind what waits. -/
theorem served_one {c r : Conn} {run : Except Fault Unit × Session}
    (hrun : run = exec (dispatchCommand libc (clock c.dispatched.length) (respParse c.readBuf).args)
      { c.session.toGlobals with writeBuf := [], closing := false })
    (hsession : r.session = { run.2 with writeBuf := c.session.writeBuf ++ run.2.writeBuf })
    (hdispatched : r.dispatched = c.dispatched ++ [(respParse c.readBuf).args])
    (hstatus : r.status = .crashed ∨
      r.status = .quit ∧ r.readBuf = c.readBuf.drop (respParse c.readBuf).consumed ∧
        run.2.writeBuf ≠ []) :
    Served libc clock c [c.readBuf] r := by
  have hreplay : replay libc clock c.dispatched.length c.session.toGlobals
      (argsOf [c.readBuf]) = ([run.2.writeBuf], run.2.toGlobals) := by
    rw [hrun]
    rfl
  -- it has ended, and not for malformed input
  have hne : ∀ why, why ≠ .crashed → why ≠ .quit → r.status ≠ why := by
    rintro why hcrashed hquit rfl
    exact hstatus.elim hcrashed fun h => hquit h.1
  refine ⟨rfl, hdispatched, ?_, ?_, fun h => ?_, fun h => ?_, hne _ (by decide) (by decide),
    fun h => ?_⟩
  · rw [hreplay, hsession]
  · rw [hreplay, hsession, ConnStatus.lastLine_of_ne (hne _ (by decide) (by decide)),
      List.append_nil, List.flatten_singleton]
  · -- the bytes of the command, and those behind them, are what was in `read_buf`
    rw [(hstatus.resolve_left h).2.1, framesOf, List.flatMap_singleton, List.take_append_drop]
  · exact absurd h (hne _ (by decide) (by decide))
  · rw [hreplay, List.flatten_singleton]
    exact (hstatus.resolve_left (by rw [h]; decide)).2.2

/-- A command in front of what the loop does behind it. -/
theorem served_cons {c r : Conn} {s : Session} {run : Except Fault Unit × Session}
    (hrun : run = exec (dispatchCommand libc (clock c.dispatched.length) (respParse c.readBuf).args)
      { c.session.toGlobals with writeBuf := [], closing := false })
    (hs : s = { run.2 with writeBuf := c.session.writeBuf ++ run.2.writeBuf })
    (hnext : ∀ i, parseLoop libc clock (i + 1) c = parseLoop libc clock i (c.next s))
    {buffers : List Bytes} (h : Served libc clock (c.next s) buffers r) :
    Served libc clock c (c.readBuf :: buffers) r := by
  have hlen : (c.next s).dispatched.length = c.dispatched.length + 1 := List.length_append
  -- the first reply, and those of the loop behind the command
  have hreplay : replay libc clock c.dispatched.length c.session.toGlobals
      (argsOf (c.readBuf :: buffers)) =
      let rest := replay libc clock (c.next s).dispatched.length (c.next s).session.toGlobals
        (argsOf buffers)
      (run.2.writeBuf :: rest.1, rest.2) := by
    have hglobals : (c.next s).session.toGlobals = run.2.toGlobals := by
      show s.toGlobals = _
      rw [hs]
    rw [hlen, hglobals, hrun]
    rfl
  refine ⟨?_, ?_, ?_, ?_, fun hcrashed => ?_, h.closing, h.status, fun hquit => ?_⟩
  · -- an iteration behind the first one is one from the next connection
    rw [List.length_cons, parsedBuffers, List.range_succ_eq_map, List.map_cons, List.map_map]
    refine congrArg₂ List.cons rfl (Eq.trans ?_ h.buffers_eq)
    exact List.map_congr_left fun i _ => congrArg Conn.readBuf (hnext i)
  · rw [h.dispatched]
    exact List.append_assoc _ _ _
  · rw [hreplay]
    exact h.globals
  · have hbuf : (c.next s).session.writeBuf = c.session.writeBuf ++ run.2.writeBuf := by
      show s.writeBuf = _
      rw [hs]
    rw [hreplay, h.writeBuf, hbuf, List.flatten_cons]
    simp only [List.append_assoc]
  · -- the command took its bytes off the front
    have hrest := h.readBuf hcrashed
    rw [framesOf, List.flatMap_cons, List.append_assoc]
    exact (List.take_append_drop _ _).symm.trans (congrArg _ hrest)
  · rw [hreplay, List.flatten_cons]
    exact List.append_ne_nil_of_right_ne_nil _ (h.quit hquit)

/-- **The loop.** -/
theorem parseLoop_served (fuel : ℕ) {c : Conn} (hopen : c.status = .connected)
    (hclosing : c.session.closing = false) :
    ∃ buffers, Served libc clock c buffers (parseLoop libc clock fuel c) := by
  induction fuel generalizing c with
  | zero => exact ⟨[], served_stop libc clock hopen hclosing⟩
  | succ fuel ih =>
    -- `run` is the command of nobody in particular, its reply in an empty buffer
    obtain ⟨hframe, hreply⟩ := exec_open libc (clock c.dispatched.length)
      (respParse c.readBuf).args hclosing
    generalize hrun : exec (dispatchCommand libc (clock c.dispatched.length)
      (respParse c.readBuf).args) { c.session.toGlobals with writeBuf := [], closing := false }
      = run at hframe hreply
    cases loopCase libc clock c with
    | waits hparse =>
      rw [parseLoop_incomplete libc clock hparse]
      exact ⟨[], served_stop libc clock hopen hclosing⟩
    | malformed hparse =>
      rw [parseLoop_error libc clock hparse]
      refine ⟨[], served_nil libc clock hclosing (Or.inr rfl) ?_⟩
      rw [List.append_assoc]
      rfl
    | crashes hparse hexec =>
      obtain ⟨-, hs⟩ := Prod.mk.inj (hexec.symm.trans hframe)
      rw [parseLoop_crash libc clock hparse hexec]
      exact ⟨_, served_one libc clock hrun.symm hs rfl (Or.inl rfl)⟩
    | quits hparse hexec hquit =>
      obtain ⟨hok, hs⟩ := Prod.mk.inj (hexec.symm.trans hframe)
      rw [hs] at hquit
      rw [parseLoop_quit libc clock hparse hexec (hs ▸ hquit)]
      exact ⟨_, served_one libc clock hrun.symm hs rfl (Or.inr ⟨rfl, rfl, hreply hok.symm hquit⟩)⟩
    | @continues s hparse hexec hgoes =>
      -- the client stays open: on with what is behind the command
      obtain ⟨-, hs⟩ := Prod.mk.inj (hexec.symm.trans hframe)
      have hnext := parseLoop_next libc clock hparse hexec hgoes
      obtain ⟨buffers, hrest⟩ := ih (c := c.next s) hopen hgoes
      rw [hnext]
      exact ⟨_, served_cons libc clock hrun.symm hs hnext hrest⟩

/-- The interest in write events, which is set behind the loop, is no part of this. -/
theorem Served.setWantWrite {c r : Conn} {buffers : List Bytes}
    (h : Served libc clock c buffers r) (want : Bool) :
    Served libc clock c buffers { r with wantWrite := want } :=
  ⟨h.buffers_eq, h.dispatched, h.globals, h.writeBuf, h.readBuf, h.closing, h.status, h.quit⟩

/-- **`handle_read`** closes the client at once, or serves what has come. -/
theorem handleRead_served {c : Conn} (hopen : c.status = .connected)
    (hclosing : c.session.closing = false) (chunks : List Bytes) (last : RecvEnd) :
    let c' := { c with readBuf := c.readBuf ++ chunks.flatten }
    handleRead libc clock c chunks last = { c' with status := .peerClosed } ∨
      ∃ buffers, Served libc clock c' buffers (handleRead libc clock c chunks last) := by
  intro c'
  have hfold := foldl_chunks chunks c.readBuf
  cases last with
  | eof =>
    rw [handleRead, hfold]
    exact Or.inl rfl
  | failed =>
    rw [handleRead, hfold]
    exact Or.inl rfl
  | again =>
    rw [handleRead, hfold]
    -- only this end of a drain comes to the loop
    obtain ⟨buffers, h⟩ := parseLoop_served libc clock (c'.readBuf.length + 1) (c := c') hopen
      hclosing
    right
    dsimp only
    split_ifs
    · exact ⟨buffers, h.setWantWrite libc clock true⟩
    · exact ⟨buffers, h⟩

/-! ### What an event on a client does -/

/-- What has become of the client `c` when `arrived` has come, of which the commands consumed
`frames`, and their replies are `replies`: it stays, it is closed, or the process has ended. -/
inductive ClientFate (s : Server) (fd : ℕ) (c : Client) (arrived frames replies : Bytes)
    (s' : Server) : Prop
  | stays (c' : Client) (serial : c'.serial = c.serial)
      (clients : s'.clients = Function.update s.clients fd (some c'))
      (closed : s'.closed = s.closed) (closing : c'.closing = false)
      (sent : c'.sent ++ c'.writeBuf = c.sent ++ c.writeBuf ++ replies)
      (received : c'.received = c.received ++ arrived)
      (readBuf : c.readBuf ++ arrived = frames ++ c'.readBuf)
  | closes (c' : Client) (serial : c'.serial = c.serial) (why : ConnStatus)
      (clients : s'.clients = Function.update s.clients fd none)
      (closed : s'.closed = s.closed ++ [(c', why)])
      (sent : why.IsOrderly →
        c'.sent ++ c'.writeBuf = c.sent ++ c.writeBuf ++ (replies ++ why.lastLine))
      (lost : why.IsOrderly → c'.writeBuf ≠ [])
  | ends (clients : s'.clients = fun _ => none) (closed : s'.closed = s.closed)

/-- What an event on the client `c` has done: the log has grown by the calls for `buffers`, they
have changed the globals, and the client has their replies. -/
structure ClientEffect (s : Server) (fd : ℕ) (c : Client) (arrived : Bytes)
    (buffers : List Bytes) (s' : Server) : Prop where
  log : s'.log = s.log ++ buffers.map (Dispatch.mk c.serial)
  globals : s'.globals = (replay libc clock s.log.length s.globals (argsOf buffers)).2
  accepted : s'.accepted = s.accepted
  fate : ClientFate s fd c arrived (framesOf buffers)
    (replay libc clock s.log.length s.globals (argsOf buffers)).1.flatten s'

section Settle

variable {s : Server} {fd : ℕ} {c : Client} {why : ConnStatus}

/-- Settling a client adds nothing to the log. -/
theorem settle_log : (settle s fd c why).log = s.log := by cases why <;> rfl

/-- It leaves the database alone. -/
theorem settle_globals : (settle s fd c why).globals = s.globals := by cases why <;> rfl

/-- It accepts nobody. -/
theorem settle_accepted : (settle s fd c why).accepted = s.accepted := by cases why <;> rfl

end Settle

/-- The fate of a client that has not sent anything meanwhile. -/
theorem fate_settle {s s₁ : Server} {fd : ℕ} {c c' : Client} {arrived frames replies : Bytes}
    {why : ConnStatus} (hclients : s₁.clients = s.clients) (hclosed : s₁.closed = s.closed)
    (hserial : c'.serial = c.serial) (hsent : c'.sent = c.sent)
    (hwriteBuf : why ≠ .peerClosed → c'.writeBuf = c.writeBuf ++ (replies ++ why.lastLine))
    (hquit : why = .quit → replies ≠ [])
    (hopen : why = .connected → c'.closing = false ∧ c'.received = c.received ++ arrived ∧
      c.readBuf ++ arrived = frames ++ c'.readBuf) :
    ClientFate s fd c arrived frames replies (settle s₁ fd c' why) := by
  -- the replies are behind what has been sent or waits
  have hbuf : why ≠ .peerClosed →
      c'.sent ++ c'.writeBuf = c.sent ++ c.writeBuf ++ (replies ++ why.lastLine) := by
    intro hwhy
    rw [hsent, hwriteBuf hwhy, List.append_assoc]
  -- closed by the server, with something in `write_buf`
  have hclose : why ≠ .peerClosed → replies ++ why.lastLine ≠ [] →
      ClientFate s fd c arrived frames replies (clientClose s₁ fd c' why) := by
    refine fun hwhy hne => .closes c' hserial why (hclients ▸ rfl) (hclosed ▸ rfl)
      (fun _ => hbuf hwhy) fun _ => ?_
    rw [hwriteBuf hwhy]
    exact List.append_ne_nil_of_right_ne_nil _ hne
  cases why with
  | connected =>
    -- it stays, and nothing is said to it beyond the replies
    obtain ⟨hclosing, hreceived, hread⟩ := hopen rfl
    have hsame := hbuf (by decide)
    rw [ConnStatus.lastLine_of_ne (by decide), List.append_nil] at hsame
    exact .stays c' hserial (hclients ▸ rfl) hclosed hclosing hsame hreceived hread
  | crashed => exact .ends rfl hclosed
  | peerClosed =>
    have hnot : ¬ConnStatus.IsOrderly .peerClosed := by decide
    exact .closes c' hserial .peerClosed (hclients ▸ rfl) (hclosed ▸ rfl)
      (fun h => absurd h hnot) fun h => absurd h hnot
  | protocolError =>
    exact hclose (by decide) (List.append_ne_nil_of_right_ne_nil _ (by decide))
  | quit => exact hclose (by decide) (List.append_ne_nil_of_left_ne_nil (hquit rfl) _)

/-- **A read event.** -/
theorem serverRead_effect (s : Server) (fd : ℕ) {c : Client} (hclosing : c.closing = false)
    (chunks : List Bytes) (last : RecvEnd) :
    ∃ buffers, ClientEffect libc clock s fd c chunks.flatten buffers
      (serverRead libc clock s fd c chunks last) := by
  rcases handleRead_served libc (fun n => clock (s.log.length + n)) (c := s.conn c) rfl hclosing
    chunks last with hgone | ⟨buffers, h⟩
  · -- closed at once: nothing has been dispatched
    refine ⟨[], ⟨settle_log.trans ?_, settle_globals.trans ?_, settle_accepted,
      fate_settle rfl rfl rfl rfl ?_ ?_ ?_⟩⟩
    · rw [hgone]
      rfl
    · rw [hgone]
      rfl
    · rw [hgone]
      exact fun hopen => absurd rfl hopen
    · rw [hgone]
      exact fun hquit => by cases hquit
    · rw [hgone]
      exact fun hopen => by cases hopen
  · -- served: the log grows by the buffers of the loop
    have hlen : (handleRead libc (fun n => clock (s.log.length + n)) (s.conn c) chunks
        last).dispatched.length = buffers.length := by
      rw [h.dispatched, argsOf]
      exact List.length_map _
    -- the clock goes on from the calls that are in the log
    have hreplay : replay libc (fun n => clock (s.log.length + n)) 0 s.globals (argsOf buffers) =
        replay libc clock s.log.length s.globals (argsOf buffers) := replay_shift libc clock _ 0 _ _
    refine ⟨buffers, ⟨settle_log.trans ?_, settle_globals.trans ?_, settle_accepted,
      fate_settle rfl rfl rfl rfl ?_ ?_ ?_⟩⟩
    · rw [hlen]
      exact congrArg (fun bs => s.log ++ bs.map (Dispatch.mk c.serial)) h.buffers_eq
    · rw [← hreplay]
      exact h.globals
    · rw [← hreplay]
      exact fun _ => h.writeBuf
    · rw [← hreplay]
      exact h.quit
    · -- a client that stays has read what the commands have not consumed
      exact fun hopen => ⟨h.closing hopen, rfl, h.readBuf (by rw [hopen]; decide)⟩

/-- The log is complete: its new calls are those that `handle_read` makes. -/
theorem log_serverRead (s : Server) (fd : ℕ) {c : Client} (hclosing : c.closing = false)
    (chunks : List Bytes) (last : RecvEnd) :
    (serverRead libc clock s fd c chunks last).log.map Dispatch.args = s.log.map Dispatch.args ++
      (handleRead libc (fun n => clock (s.log.length + n)) (s.conn c) chunks last).dispatched := by
  have hlog : (serverRead libc clock s fd c chunks last).log = _ := settle_log
  rw [hlog, List.map_append, List.map_map]
  refine congrArg (s.log.map Dispatch.args ++ ·) ?_
  rcases handleRead_served libc (fun n => clock (s.log.length + n)) (c := s.conn c) rfl hclosing
    chunks last with hgone | ⟨buffers, h⟩
  · rw [hgone]
    rfl
  · rw [h.dispatched]
    show argsOf (parsedBuffers libc _ _ (argsOf buffers).length) = argsOf buffers
    -- one buffer for each command that was dispatched
    have hlen : (argsOf buffers).length = buffers.length := List.length_map _
    rw [hlen]
    exact congrArg argsOf h.buffers_eq

/-- The loop of `handle_write` loses and changes nothing. -/
theorem sendLoop_spec (c : Client) (sends : List ℕ) :
    (sendLoop c sends).sent ++ (sendLoop c sends).writeBuf = c.sent ++ c.writeBuf ∧
      (sendLoop c sends).serial = c.serial ∧ (sendLoop c sends).closing = c.closing ∧
      (sendLoop c sends).received = c.received ∧ (sendLoop c sends).readBuf = c.readBuf := by
  induction sends generalizing c with
  | nil => exact ⟨rfl, rfl, rfl, rfl, rfl⟩
  | cons n ns ih =>
    rw [sendLoop]
    split_ifs
    · exact ⟨rfl, rfl, rfl, rfl, rfl⟩
    · obtain ⟨hsent, hrest⟩ := ih
        { c with writeBuf := c.writeBuf.drop n, sent := c.sent ++ c.writeBuf.take n }
      -- what one `send` takes moves from `write_buf` to what has been sent
      refine ⟨hsent.trans ?_, hrest⟩
      show c.sent ++ c.writeBuf.take n ++ c.writeBuf.drop n = _
      rw [List.append_assoc, List.take_append_drop]

/-- **A write event.** -/
theorem serverWrite_effect (s : Server) (fd : ℕ) {c : Client} (hclosing : c.closing = false)
    (sends : List ℕ) (last : SendEnd) :
    ClientEffect libc clock s fd c [] [] (serverWrite s fd c sends last) := by
  obtain ⟨hsent, hserial, hsame, hreceived, hread⟩ := sendLoop_spec c sends
  rw [← List.append_nil (c.sent ++ c.writeBuf)] at hsent
  -- nothing is dispatched, so only the fate of the client is to be shown
  have heffect : ∀ {s' : Server}, s'.log = s.log → s'.globals = s.globals →
      s'.accepted = s.accepted → ClientFate s fd c [] [] [] s' →
      ClientEffect libc clock s fd c [] [] s' :=
    fun hlog hglobals haccepted hfate =>
      ⟨hlog.trans (List.append_nil _).symm, hglobals, haccepted, hfate⟩
  unfold serverWrite
  dsimp only
  split_ifs
  · -- all is sent; that no more write events are wanted is no matter here
    exact heffect rfl rfl rfl (.stays { sendLoop c sends with wantWrite := false } hserial rfl rfl
      (hsame.trans hclosing) hsent (hreceived.trans (List.append_nil _).symm)
      ((List.append_nil _).trans hread.symm))
  · cases last with
    | again =>
      -- some is left, and waits for the next write event
      exact heffect rfl rfl rfl (.stays _ hserial rfl rfl (hsame.trans hclosing) hsent
        (hreceived.trans (List.append_nil _).symm) ((List.append_nil _).trans hread.symm))
    | failed =>
      -- the peer is gone, and closing the client promises nothing
      have hnot : ¬ConnStatus.IsOrderly .peerClosed := by decide
      exact heffect rfl rfl rfl (.closes _ hserial .peerClosed rfl rfl
        (fun h => absurd h hnot) fun h => absurd h hnot)

end Minired
