import Minired.Reachable
import Minired.Resp

/-!
# The server and one client

`handle_read` drains the socket of a client into `read_buf` and then takes commands off its
front, as long as it holds whole ones. `Conn` is the client with the globals of the program; it
also records what `dispatch_command` was called with, in order, which is a ghost: no code
reads it.

What `recv` returns is the input: a drain is a list of chunks, and how it ended. The clock is
read once a command; `clock n` is the time of the `n`-th command of the client.

An exception that leaves a handler leaves `handle_read`, `server_run` and `main`, and ends the
server; this is the status `crashed`.
-/

namespace Minired

open Relational Framing

/-- What has become of the connection: it is open, the client has closed it or it failed, the
server has closed it, for malformed input or after `QUIT`, or the server has ended. -/
inductive ConnStatus
  | connected
  | peerClosed
  | protocolError
  | quit
  | crashed
deriving DecidableEq

/-- A client and the globals. `wantWrite` is the interest in write events. -/
structure Conn where
  session : Session
  readBuf : Bytes
  dispatched : List (List Bytes)
  status : ConnStatus
  wantWrite : Bool

/-- A client that has just been accepted. -/
def Conn.accepted (s : Session) : Conn := ⟨s, [], [], .connected, false⟩

/-- The last `recv` of a drain: nothing more for now, the end of the stream, or a failure. -/
inductive RecvEnd
  | again
  | eof
  | failed

variable (libc : Libc) (clock : ℕ → Int64)

/-- The loop of `handle_read` over the commands in `read_buf`. -/
def parseLoop : ℕ → Conn → Conn
  | 0, c => c
  | fuel + 1, c =>
    if c.readBuf = [] then c
    else
      let res := respParse c.readBuf
      match res.status with
      | .incomplete => c
      | .error =>
        { c with
          session := { c.session with
            writeBuf := c.session.writeBuf ++ ascii "-ERR protocol error" ++ crlf }
          status := .protocolError }
      | .ok =>
        let r := exec (dispatchCommand libc (clock c.dispatched.length) res.args) c.session
        let c := { c with session := r.2, dispatched := c.dispatched ++ [res.args] }
        match r.1 with
        | .error _ => { c with status := .crashed }
        | .ok _ =>
          let c := { c with readBuf := c.readBuf.drop res.consumed }
          if c.session.closing then { c with status := .quit } else parseLoop fuel c

/-- `handle_read`. Every command takes a byte of `read_buf` at least. -/
def handleRead (c : Conn) (chunks : List Bytes) (last : RecvEnd) : Conn :=
  let c := { c with readBuf := chunks.foldl (· ++ ·) c.readBuf }
  match last with
  | .eof => { c with status := .peerClosed }
  | .failed => { c with status := .peerClosed }
  | .again =>
    let c := parseLoop libc clock (c.readBuf.length + 1) c
    if c.status = .connected ∧ c.session.writeBuf ≠ [] then { c with wantWrite := true } else c

/-- A drain that ends with `EAGAIN`. A client that is no longer connected has none. -/
def drain (c : Conn) (chunks : List Bytes) : Conn :=
  if c.status = .connected then handleRead libc clock c chunks .again else c

/-- The commands executed one after the other, with nothing in between, the first one at
`clock n`. -/
def dispatchAll (n : ℕ) (s : Session) : List (List Bytes) → Except Fault Unit × Session
  | [] => (.ok (), s)
  | cmd :: cmds =>
    match exec (dispatchCommand libc (clock n) cmd) s with
    | (.ok _, s') => dispatchAll (n + 1) s' cmds
    | (.error e, s') => (.error e, s')

/-! ### Commands one after the other -/

/-- Commands are dispatched one after the other. -/
theorem dispatchAll_append (n : ℕ) (s : Session) (cmds more : List (List Bytes)) :
    dispatchAll libc clock n s (cmds ++ more) =
      match dispatchAll libc clock n s cmds with
      | (.ok _, s') => dispatchAll libc clock (n + cmds.length) s' more
      | (.error e, s') => (.error e, s') := by
  induction cmds generalizing n s with
  | nil => rfl
  | cons cmd cmds ih =>
    rw [List.cons_append, dispatchAll, dispatchAll]
    rcases exec (dispatchCommand libc (clock n) cmd) s with ⟨_ | _, s'⟩
    · rfl
    · dsimp only
      rw [ih, List.length_cons, Nat.add_assoc, Nat.add_comm 1]

/-- The commands of which none is `QUIT`. -/
def NoQuit (cmds : List (List Bytes)) : Prop :=
  ∀ cmd ∈ cmds, findCommand (arg cmd 0) ≠ some .QUIT

/-- A command other than `QUIT` keeps the table well formed and the client open. -/
theorem keeps_dispatchCommand (now : Int64) {cmd : List Bytes}
    (hquit : findCommand (arg cmd 0) ≠ some .QUIT) :
    Keeps (Session.Sound false) (dispatchCommand libc now cmd) := by
  cases cmd with
  | nil => exact Keeps.pure ()
  | cons name args =>
    rw [dispatchCommand]
    cases hfind : findCommand name with
    | some c =>
      refine keeps_handler libc now ?_ _
      rintro rfl
      exact hquit hfind
    | none =>
      -- an unknown command is answered with an error in three pieces
      exact (keeps_emit _).bind fun _ => (keeps_emit _).bind fun _ => keeps_emit _

/-- They keep a session sound. -/
theorem sound_dispatchAll {cmds : List (List Bytes)} (hquit : NoQuit cmds) (n : ℕ) {s : Session}
    (hs : s.Sound false) : (dispatchAll libc clock n s cmds).2.Sound false := by
  induction cmds generalizing n s with
  | nil => exact hs
  | cons cmd cmds ih =>
    have hstep := keeps_dispatchCommand libc (clock n) (hquit cmd List.mem_cons_self) s hs
    rw [dispatchAll]
    rcases h : exec (dispatchCommand libc (clock n) cmd) s with ⟨_ | _, s'⟩
    · rwa [h] at hstep
    · rw [h] at hstep
      exact ih (fun c hc => hquit c (List.mem_cons_of_mem cmd hc)) (n + 1) hstep

/-! ### One iteration of the loop -/

/-- The connection behind a command that returns and leaves the client open. -/
def Conn.next (c : Conn) (s : Session) : Conn :=
  { c with
    session := s
    dispatched := c.dispatched ++ [(respParse c.readBuf).args]
    readBuf := c.readBuf.drop (respParse c.readBuf).consumed }

/-- What was parsed is not empty. -/
theorem ne_nil_of_status {b : Bytes} (h : (respParse b).status ≠ .incomplete) : b ≠ [] := by
  rintro rfl
  exact h rfl

/-- A command takes at least a byte. -/
theorem length_drop_consumed {b : Bytes} (h : (respParse b).status = .ok) :
    (b.drop (respParse b).consumed).length < b.length := by
  have hpos := respParse_consumed h
  have hlen := List.length_pos_of_ne_nil
    (ne_nil_of_status (show (respParse b).status ≠ .incomplete by rw [h]; decide))
  rw [List.length_drop]
  omega

section Iteration

variable {c : Conn}

/-- In front of nothing, or of too little, the loop stops. -/
theorem parseLoop_incomplete (h : (respParse c.readBuf).status = .incomplete) (fuel : ℕ) :
    parseLoop libc clock fuel c = c := by
  cases fuel with
  | zero => rfl
  | succ fuel =>
    rw [parseLoop]
    split_ifs with hnil
    · rfl
    · dsimp only
      rw [h]

/-- A protocol error is answered with a line, and ends the connection. -/
theorem parseLoop_error (h : (respParse c.readBuf).status = .error) (fuel : ℕ) :
    parseLoop libc clock (fuel + 1) c =
      { c with
        session := { c.session with
          writeBuf := c.session.writeBuf ++ ascii "-ERR protocol error" ++ crlf }
        status := .protocolError } := by
  rw [parseLoop, if_neg (ne_nil_of_status (by rw [h]; decide))]
  dsimp only
  rw [h]

section Command

variable (hparse : (respParse c.readBuf).status = .ok) {s : Session}

include hparse

/-- A command that does not return ends the server. -/
theorem parseLoop_crash {e : Fault}
    (hexec : exec (dispatchCommand libc (clock c.dispatched.length) (respParse c.readBuf).args)
      c.session = (.error e, s)) (fuel : ℕ) :
    parseLoop libc clock (fuel + 1) c =
      { c with
        session := s
        dispatched := c.dispatched ++ [(respParse c.readBuf).args]
        status := .crashed } := by
  rw [parseLoop, if_neg (ne_nil_of_status (by rw [hparse]; decide))]
  dsimp only
  rw [hparse, hexec]

/-- A command that sets `closing` ends the connection. -/
theorem parseLoop_quit
    (hexec : exec (dispatchCommand libc (clock c.dispatched.length) (respParse c.readBuf).args)
      c.session = (.ok (), s)) (hquit : s.closing = true) (fuel : ℕ) :
    parseLoop libc clock (fuel + 1) c = { c.next s with status := .quit } := by
  rw [parseLoop, if_neg (ne_nil_of_status (by rw [hparse]; decide))]
  dsimp only
  rw [hparse, hexec]
  exact if_pos hquit

/-- Behind any other command the loop goes on. -/
theorem parseLoop_next
    (hexec : exec (dispatchCommand libc (clock c.dispatched.length) (respParse c.readBuf).args)
      c.session = (.ok (), s)) (hopen : s.closing = false) (fuel : ℕ) :
    parseLoop libc clock (fuel + 1) c = parseLoop libc clock fuel (c.next s) := by
  rw [parseLoop, if_neg (ne_nil_of_status (by rw [hparse]; decide))]
  dsimp only
  rw [hparse, hexec]
  dsimp only
  rw [if_neg (by rw [hopen]; decide)]
  rfl

end Command

end Iteration

/-- What an iteration of the loop finds at the front of `read_buf`, and what comes of it. -/
inductive LoopCase (c : Conn) : Prop
  | waits (h : (respParse c.readBuf).status = .incomplete)
  | malformed (h : (respParse c.readBuf).status = .error)
  | crashes {e : Fault} {s : Session} (hparse : (respParse c.readBuf).status = .ok)
      (hexec : exec (dispatchCommand libc (clock c.dispatched.length) (respParse c.readBuf).args)
        c.session = (.error e, s))
  | quits {s : Session} (hparse : (respParse c.readBuf).status = .ok)
      (hexec : exec (dispatchCommand libc (clock c.dispatched.length) (respParse c.readBuf).args)
        c.session = (.ok (), s)) (hquit : s.closing = true)
  | continues {s : Session} (hparse : (respParse c.readBuf).status = .ok)
      (hexec : exec (dispatchCommand libc (clock c.dispatched.length) (respParse c.readBuf).args)
        c.session = (.ok (), s)) (hopen : s.closing = false)

/-- The three cases of the loop. -/
theorem loopCase (c : Conn) : LoopCase libc clock c := by
  rcases hparse : (respParse c.readBuf).status with _ | _ | _
  · rcases hexec : exec (dispatchCommand libc (clock c.dispatched.length)
      (respParse c.readBuf).args) c.session with ⟨e | u, s⟩
    · exact .crashes hparse hexec
    · cases hclosing : s.closing with
      | true => exact .quits hparse hexec hclosing
      | false => exact .continues hparse hexec hclosing
  · exact .waits hparse
  · exact .malformed hparse

/-- A command shortens the buffer. -/
theorem length_next {c : Conn} (hparse : (respParse c.readBuf).status = .ok) (s : Session) :
    (c.next s).readBuf.length < c.readBuf.length :=
  length_drop_consumed hparse

/-- **The fuel** of the loop is no limit: any amount above the number of bytes does the same. -/
theorem parseLoop_fuel {m n : ℕ} {c : Conn} (hm : c.readBuf.length < m)
    (hn : c.readBuf.length < n) : parseLoop libc clock m c = parseLoop libc clock n c := by
  induction m generalizing c n with
  | zero => exact absurd hm (Nat.not_lt_zero _)
  | succ m ih =>
    obtain ⟨n, rfl⟩ : ∃ k, n = k + 1 := ⟨n - 1, by omega⟩
    cases loopCase libc clock c with
    | waits hparse =>
      rw [parseLoop_incomplete libc clock hparse, parseLoop_incomplete libc clock hparse]
    | malformed hparse => rw [parseLoop_error libc clock hparse, parseLoop_error libc clock hparse]
    | crashes hparse hexec =>
      rw [parseLoop_crash libc clock hparse hexec, parseLoop_crash libc clock hparse hexec]
    | quits hparse hexec hquit =>
      rw [parseLoop_quit libc clock hparse hexec hquit,
        parseLoop_quit libc clock hparse hexec hquit]
    | @continues s hparse hexec hopen =>
      -- there is fuel for what is behind the command
      rw [parseLoop_next libc clock hparse hexec hopen,
        parseLoop_next libc clock hparse hexec hopen]
      have hlt := length_next hparse s
      exact ih (by omega) (by omega)

/-! ### The loop on a stream of commands -/

/-- A loop in front of incomplete input stops. -/
theorem parseLoop_waits {fuel : ℕ} {c : Conn}
    (h : c.readBuf = [] ∨ (respParse c.readBuf).outcome = .incomplete) :
    parseLoop libc clock fuel c = c := by
  refine parseLoop_incomplete libc clock ?_ fuel
  rcases h with hnil | hwaits
  · rw [hnil]
    rfl
  · exact RespResult.outcome_incomplete.mp hwaits

/-- One iteration, in front of a command. -/
theorem parseLoop_command {cmd : List Bytes} (hcmd : Sendable cmd) (rest : Bytes) (fuel : ℕ)
    {c : Conn} (hread : c.readBuf = respArray cmd ++ rest) :
    parseLoop libc clock (fuel + 1) c =
      match exec (dispatchCommand libc (clock c.dispatched.length) cmd) c.session with
      | (.error _, s) =>
        { c with session := s, dispatched := c.dispatched ++ [cmd], status := .crashed }
      | (.ok _, s) =>
        let c := { c with session := s, readBuf := rest, dispatched := c.dispatched ++ [cmd] }
        if s.closing then { c with status := .quit } else parseLoop libc clock fuel c := by
  have hwhole := resp_frames.whole cmd hcmd rest
  rw [← hread] at hwhole
  -- the parser gives the command and its length, whatever follows
  have hres := RespResult.outcome_message.mp hwhole
  have hparse : (respParse c.readBuf).status = .ok := by rw [hres]
  have hargs : (respParse c.readBuf).args = cmd := by rw [hres]
  have hbehind : c.readBuf.drop (respParse c.readBuf).consumed = rest := by
    rw [hres, hread, List.drop_left]
  rcases hexec : exec (dispatchCommand libc (clock c.dispatched.length) cmd) c.session
    with ⟨e | u, s⟩
  · rw [parseLoop_crash libc clock hparse (by rw [hargs]; exact hexec), hargs]
  · have hnext : c.next s =
        { c with session := s, readBuf := rest, dispatched := c.dispatched ++ [cmd] } := by
      rw [Conn.next, hargs, hbehind]
    dsimp only
    split_ifs with hquit
    · rw [parseLoop_quit libc clock hparse (by rw [hargs]; exact hexec) hquit, hnext]
    · rw [parseLoop_next libc clock hparse (by rw [hargs]; exact hexec)
        ((Bool.not_eq_true _).mp hquit), hnext]

/-- **The loop** dispatches the whole commands at the front of the buffer in order, and leaves
what is behind them, unless one of them does not return. -/
theorem parseLoop_stream {cmds : List (List Bytes)} (hsend : ∀ cmd ∈ cmds, Sendable cmd)
    (hquit : NoQuit cmds) {rest : Bytes}
    (hrest : rest = [] ∨ (respParse rest).outcome = .incomplete) {fuel : ℕ}
    (hfuel : cmds.length ≤ fuel) {c : Conn} (hread : c.readBuf = stream respArray cmds ++ rest)
    (hsound : c.session.Sound false) :
    match dispatchAll libc clock c.dispatched.length c.session cmds with
    | (.ok _, s) => parseLoop libc clock fuel c =
        { c with session := s, readBuf := rest, dispatched := c.dispatched ++ cmds }
    | (.error _, _) => (parseLoop libc clock fuel c).status = .crashed := by
  induction cmds generalizing fuel c with
  | nil =>
    rw [stream_nil, List.nil_append] at hread
    rw [dispatchAll]
    dsimp only
    rw [parseLoop_waits libc clock (hread ▸ hrest), ← hread, List.append_nil]
  | cons cmd cmds ih =>
    obtain ⟨fuel, rfl⟩ : ∃ k, fuel = k + 1 := ⟨fuel - 1, by rw [List.length_cons] at hfuel; omega⟩
    rw [stream_cons, List.append_assoc] at hread
    have hkeeps := keeps_dispatchCommand libc (clock c.dispatched.length)
      (hquit cmd List.mem_cons_self) c.session hsound
    rw [parseLoop_command libc clock (hsend cmd List.mem_cons_self) _ fuel hread, dispatchAll]
    -- an exception of the handler ends both
    rcases hexec : exec (dispatchCommand libc (clock c.dispatched.length) cmd) c.session
      with ⟨_ | _, s⟩
    · rfl
    · rw [hexec] at hkeeps
      dsimp only
      -- the handler has returned and the client is open: on with the rest
      have hshort : cmds.length ≤ fuel := by
        rw [List.length_cons] at hfuel
        omega
      have hnext := ih (fun d hd => hsend d (List.mem_cons_of_mem cmd hd))
        (fun d hd => hquit d (List.mem_cons_of_mem cmd hd)) hshort
        (c := { c with
          session := s
          readBuf := stream respArray cmds ++ rest
          dispatched := c.dispatched ++ [cmd] }) rfl hkeeps
      rw [hkeeps.closing_eq, if_neg (by decide)]
      dsimp only at hnext
      rw [List.length_append, List.length_singleton] at hnext
      revert hnext
      rcases dispatchAll libc clock (c.dispatched.length + 1) s cmds with ⟨_ | _, s'⟩
      · exact id
      · intro hnext
        dsimp only at hnext ⊢
        rw [hnext, List.append_assoc]
        rfl

end Minired
