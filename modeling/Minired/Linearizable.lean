import Minired.EventLoopInv
import Minired.KeyspaceCommands

/-!
# The server and one store

Clients come and go, their commands arrive in pieces, their replies leave in pieces, and beside the
loop runs the sweep. `event_loop_linearizable` says that there is one run of `Keyspace.Step` behind
all of this, from beginning to end: at every moment the calls of `dispatch_command` so far are the
commands of a beginning of this run, in its order, and every connected client has got, or is going
to get, the replies of this run to its own commands, and nothing else.

So a command takes effect between the moment its last byte arrives and the moment its reply leaves,
for everybody at once. `Server.Linearized` is what holds of the server and the run up to now, and
`Server.Ran` is the invariant behind it.
-/

namespace Minired

open Relational Refinement

variable (libc : Libc) (clock : ℕ → Int64)

/-- What happens to the program: an event of the loop, or a `check_expiry` of the sweep. -/
inductive LoopEvent
  | io (e : ServerEvent)
  | sweep (now : Int64) (key : Bytes)

/-- A step of the program. The sweep ends with the process. -/
def loopStep (s : Server) : LoopEvent → Server
  | .io e => serverStep libc clock s e
  | .sweep now key =>
    if s.ended then s
    else { s with globals := { s.globals with dict := (checkExpiry now s.globals.dict key).1 } }

/-- A run of the program. -/
def loopRun (g : Globals) (events : List LoopEvent) : Server :=
  events.foldl (loopStep libc clock) (.start g)

/-- The command of the event, with its time. -/
def StoreEvent.command? : StoreEvent → Option (Int64 × List Bytes)
  | .command now args => some (now, args)
  | .sweep _ _ => none

/-- The commands of a run, with their replies. -/
def history (trace : List (StoreEvent × Bytes)) : List ((Int64 × List Bytes) × Bytes) :=
  trace.filterMap fun io => io.1.command?.map fun call => (call, io.2)

/-- The calls of `dispatch_command`. -/
def Server.calls (s : Server) : List (Int64 × List Bytes) :=
  (s.log.map Dispatch.args).mapIdx fun n args => (clock n, args)

/-- **The server has done what the run says**: its calls are the commands of the run, what a client
has sent are its commands and what is in `read_buf`, and what it has got and what is in `write_buf`
are its replies. -/
structure Server.Linearized (s : Server) (trace : List (StoreEvent × Bytes)) : Prop where
  calls : (history trace).map Prod.fst = s.calls clock
  received : ∀ {fd c}, s.clients fd = some c → c.received = s.consumedBy c.serial ++ c.readBuf
  sent : ∀ {fd c}, s.clients fd = some c →
    c.sent ++ c.writeBuf = piecesOf c.serial s.log ((history trace).map Prod.snd)

/-! ### The commands of one event -/

/-- The commands executed one after the other, as `replay` does it, as steps of the store. -/
def commandTrace (n : ℕ) (g : Globals) : List (List Bytes) → List (StoreEvent × Bytes)
  | [] => []
  | cmd :: cmds =>
    let s := (exec (dispatchCommand libc (clock n) cmd)
      { g with writeBuf := [], closing := false }).2
    (.command (clock n) cmd, s.writeBuf) :: commandTrace (n + 1) s.toGlobals cmds

/-- A clock that has gone on is one that starts later. -/
theorem commandTrace_shift (m n : ℕ) (g : Globals) (cmds : List (List Bytes)) :
    commandTrace libc (fun i => clock (m + i)) n g cmds =
      commandTrace libc clock (m + n) g cmds := by
  induction cmds generalizing n g with
  | nil => rfl
  | cons cmd cmds ih => rw [commandTrace, commandTrace, ih, Nat.add_assoc]

/-- The history of two pieces. -/
theorem history_append (trace more : List (StoreEvent × Bytes)) :
    history (trace ++ more) = history trace ++ history more := List.filterMap_append

/-- The calls of a trace are the commands with their times. -/
theorem calls_commandTrace (n : ℕ) (g : Globals) (cmds : List (List Bytes)) :
    (history (commandTrace libc clock n g cmds)).map Prod.fst =
      cmds.mapIdx fun i cmd => (clock (i + n), cmd) := by
  induction cmds generalizing n g with
  | nil => rfl
  | cons cmd cmds ih =>
    rw [commandTrace, List.mapIdx_cons, Nat.zero_add]
    refine congrArg ((clock n, cmd) :: ·) ((ih (n + 1) _).trans ?_)
    simp only [Nat.add_assoc, Nat.add_comm 1 n]

/-- Its answers are the replies. -/
theorem replies_commandTrace (n : ℕ) (g : Globals) (cmds : List (List Bytes)) :
    (history (commandTrace libc clock n g cmds)).map Prod.snd =
      (replay libc clock n g cmds).1 := by
  induction cmds generalizing n g with
  | nil => rfl
  | cons cmd cmds ih => exact congrArg (_ :: ·) (ih (n + 1) _)

/-- A command that returns is a step of the store, whoever it is executed for. -/
theorem step_exec {g : Globals} {now : Int64} {args : List Bytes} {s : Session}
    {run : Except Fault Unit × Session} {w : Bytes}
    (hrun : exec (dispatchCommand libc now args) { g with writeBuf := [], closing := false } = run)
    (hok : .ok () = run.1) (hs : s = { run.2 with writeBuf := w }) :
    Globals.Step libc g (.command now args) run.2.writeBuf s.toGlobals := by
  have hglobals : s.toGlobals = run.2.toGlobals := by rw [hs]
  rw [hglobals]
  exact .command (hrun.trans (Prod.ext hok.symm rfl))

/-- **The loop of `handle_read`** makes steps of the store, unless a command does not return. -/
theorem runs_parseLoop (fuel : ℕ) {c : Conn} (hclosing : c.session.closing = false)
    (hreturns : (parseLoop libc clock fuel c).status ≠ .crashed) :
    ∃ cmds, (parseLoop libc clock fuel c).dispatched = c.dispatched ++ cmds ∧
      Runs (Globals.Step libc) c.session.toGlobals
        (commandTrace libc clock c.dispatched.length c.session.toGlobals cmds)
        (parseLoop libc clock fuel c).session.toGlobals := by
  induction fuel generalizing c with
  | zero => exact ⟨[], (List.append_nil _).symm, .nil _⟩
  | succ fuel ih =>
    -- `run` is the command of nobody in particular, which is the step of the store
    obtain ⟨hframe, -⟩ := exec_open libc (clock c.dispatched.length)
      (respParse c.readBuf).args hclosing
    generalize hrun : exec (dispatchCommand libc (clock c.dispatched.length)
      (respParse c.readBuf).args) { c.session.toGlobals with writeBuf := [], closing := false }
      = run at hframe
    cases loopCase libc clock c with
    | waits hparse =>
      rw [parseLoop_incomplete libc clock hparse]
      exact ⟨[], (List.append_nil _).symm, .nil _⟩
    | malformed hparse =>
      rw [parseLoop_error libc clock hparse]
      exact ⟨[], (List.append_nil _).symm, .nil _⟩
    | crashes hparse hexec =>
      rw [parseLoop_crash libc clock hparse hexec] at hreturns
      exact absurd rfl hreturns
    | @quits s hparse hexec hquit =>
      obtain ⟨hok, hs⟩ := Prod.mk.inj (hexec.symm.trans hframe)
      rw [parseLoop_quit libc clock hparse hexec hquit]
      refine ⟨[(respParse c.readBuf).args], rfl, ?_⟩
      rw [commandTrace, hrun]
      exact .single (step_exec libc hrun hok hs)
    | @continues s hparse hexec hgoes =>
      obtain ⟨hok, hs⟩ := Prod.mk.inj (hexec.symm.trans hframe)
      rw [parseLoop_next libc clock hparse hexec hgoes] at hreturns ⊢
      obtain ⟨cmds, hdispatched, hrest⟩ := ih (c := c.next s) hgoes hreturns
      refine ⟨(respParse c.readBuf).args :: cmds, hdispatched.trans (List.append_assoc _ _ _), ?_⟩
      -- the loop goes on from the store that the command leaves
      have hlen : (c.next s).dispatched.length = c.dispatched.length + 1 := List.length_append
      have hglobals : (c.next s).session.toGlobals = run.2.toGlobals :=
        (congrArg Session.toGlobals hs).trans rfl
      rw [commandTrace, hrun]
      rw [hlen] at hrest
      refine .cons (step_exec libc hrun hok hs) ?_
      rw [← hglobals]
      exact hrest

/-- So does `handle_read`. -/
theorem runs_handleRead {c : Conn} (hclosing : c.session.closing = false) (chunks : List Bytes)
    (last : RecvEnd) (hreturns : (handleRead libc clock c chunks last).status ≠ .crashed) :
    ∃ cmds, (handleRead libc clock c chunks last).dispatched = c.dispatched ++ cmds ∧
      Runs (Globals.Step libc) c.session.toGlobals
        (commandTrace libc clock c.dispatched.length c.session.toGlobals cmds)
        (handleRead libc clock c chunks last).session.toGlobals := by
  cases last with
  | eof => exact ⟨[], (List.append_nil _).symm, .nil _⟩
  | failed => exact ⟨[], (List.append_nil _).symm, .nil _⟩
  | again =>
    rw [handleRead] at hreturns ⊢
    dsimp only at hreturns ⊢
    -- the interest in write events is set behind the loop
    split_ifs at hreturns ⊢
    · exact runs_parseLoop libc clock _ (c := { c with readBuf := _ }) hclosing hreturns
    · exact runs_parseLoop libc clock _ (c := { c with readBuf := _ }) hclosing hreturns

/-! ### The end of the process -/

/-- Settling a client ends the server only where it crashed. -/
theorem ended_settle {s : Server} {fd : ℕ} {c : Client} {why : ConnStatus}
    (h : (settle s fd c why).ended = false) : s.ended = false ∧ why ≠ .crashed := by
  cases why with
  | crashed => cases h
  | _ => exact ⟨h, by decide⟩

/-- Sending does not end it. -/
theorem ended_serverWrite (s : Server) (fd : ℕ) (c : Client) (sends : List ℕ) (last : SendEnd) :
    (serverWrite s fd c sends last).ended = s.ended := by
  unfold serverWrite
  dsimp only
  split_ifs
  · rfl
  · cases last <;> rfl

/-- Nor does a client that can be written to. -/
theorem ended_writeReady (s : Server) (fd : ℕ) (write : Option (List ℕ × SendEnd)) :
    (writeReady s fd write).ended = s.ended := by
  rcases write with _ | ⟨sends, last⟩
  · rfl
  · rw [writeReady]
    split
    · rfl
    · exact ended_serverWrite s fd _ sends last

/-- A server that has not ended behind a read had not before. -/
theorem ended_readReady {s : Server} {fd : ℕ} {read : Option (List Bytes × RecvEnd)}
    (h : (readReady libc clock s fd read).ended = false) : s.ended = false := by
  rcases read with _ | ⟨chunks, last⟩
  · exact h
  · rw [readReady] at h
    split at h
    · exact h
    · exact (ended_settle h).1

/-- The process does not start again. -/
theorem ended_loopStep {s : Server} {e : LoopEvent} (h : (loopStep libc clock s e).ended = false) :
    s.ended = false := by
  rcases e with (fd | ⟨fd, read, write⟩) | ⟨now, key⟩
  · by_contra hended
    rw [Bool.not_eq_false] at hended
    rw [loopStep, serverStep, if_pos hended, hended] at h
    cases h
  · rw [loopStep, serverStep, ended_writeReady] at h
    exact ended_readReady libc clock h
  · by_contra hended
    rw [Bool.not_eq_false] at hended
    rw [loopStep, if_pos hended, hended] at h
    cases h

/-! ### The invariant -/

variable {libc clock}

/-- **The invariant**: the run of the store behind the server, and what the log and the serial
numbers need for it to go on. -/
structure Server.Ran (libc : Libc) (clock : ℕ → Int64) (g : Globals) (s : Server)
    (trace : List (StoreEvent × Bytes)) : Prop extends s.Linearized clock trace where
  runs : Runs (Globals.Step libc) g trace s.globals
  logged : ∀ d ∈ s.log, d.serial < s.accepted
  opened : ∀ {fd c}, s.clients fd = some c → c.closing = false ∧ c.serial < s.accepted
  distinct : ∀ {fd fd' c c'}, s.clients fd = some c → s.clients fd' = some c' →
    c.serial = c'.serial → fd = fd'

/-- One reply for each call. -/
theorem Server.Linearized.length_eq {s : Server} {trace : List (StoreEvent × Bytes)}
    (h : s.Linearized clock trace) : s.log.length = ((history trace).map Prod.snd).length := by
  have hlen := congrArg List.length h.calls
  rw [List.length_map, Server.calls, List.length_mapIdx, List.length_map] at hlen
  rw [List.length_map, hlen]

namespace Server.Ran

variable {g : Globals} {s s' : Server} {trace : List (StoreEvent × Bytes)}

/-- Before the first event. -/
theorem start (libc : Libc) (clock : ℕ → Int64) (g : Globals) :
    Server.Ran libc clock g (.start g) [] where
  calls := rfl
  received := fun hc => by cases hc
  sent := fun hc => by cases hc
  runs := .nil g
  logged := fun _ hd => absurd hd List.not_mem_nil
  opened := fun hc => by cases hc
  distinct := fun hc => by cases hc

/-- **The sweep** is a step of the store that nobody notices. -/
theorem sweep (h : Server.Ran libc clock g s trace) (now : Int64) (key : Bytes) :
    Server.Ran libc clock g
      { s with globals := { s.globals with dict := (checkExpiry now s.globals.dict key).1 } }
      (trace ++ [(.sweep now key, [])]) := by
  have hsame : history (trace ++ [(.sweep now key, [])]) = history trace :=
    (history_append _ _).trans (List.append_nil _)
  refine ⟨⟨?_, h.received, fun hc => ?_⟩, h.runs.append (.single .sweep), h.logged, h.opened,
    h.distinct⟩
  · rw [hsame]
    exact h.calls
  · rw [hsame]
    exact h.sent hc

/-- **A new client** has a serial number that nobody has had. -/
theorem accept (h : Server.Ran libc clock g s trace) (fd : ℕ) :
    Server.Ran libc clock g (handleAccept s fd) trace := by
  unfold handleAccept
  split_ifs with hused
  · exact h
  have hgrow : ∀ {n}, n < s.accepted → n < s.accepted + 1 := fun hn => hn.trans (Nat.lt_succ_self _)
  -- nobody has been logged under the next serial number
  have hfresh : ∀ pieces, piecesOf s.accepted s.log pieces = [] := fun _ =>
    piecesOf_others fun d hd => (h.logged d hd).ne
  refine ⟨⟨h.calls, fun hc => ?_, fun hc => ?_⟩, h.runs, fun d hd => hgrow (h.logged d hd),
    fun hc => ?_, fun hc₁ hc₂ heq => ?_⟩
  · rcases some_of_update hc with ⟨-, hnew⟩ | ⟨-, hold⟩
    · obtain rfl := Option.some.inj hnew
      exact (List.append_nil _).symm.trans (congrArg (· ++ []) (hfresh _).symm)
    · exact h.received hold
  · rcases some_of_update hc with ⟨-, hnew⟩ | ⟨-, hold⟩
    · obtain rfl := Option.some.inj hnew
      exact (hfresh _).symm
    · exact h.sent hold
  · rcases some_of_update hc with ⟨-, hnew⟩ | ⟨-, hold⟩
    · obtain rfl := Option.some.inj hnew
      exact ⟨rfl, Nat.lt_succ_self _⟩
    · exact ⟨(h.opened hold).1, hgrow (h.opened hold).2⟩
  · rcases some_of_update hc₁ with ⟨rfl, hnew₁⟩ | ⟨-, hold₁⟩ <;>
      rcases some_of_update hc₂ with ⟨rfl, hnew₂⟩ | ⟨-, hold₂⟩
    · rfl
    · obtain rfl := Option.some.inj hnew₁
      exact absurd heq.symm (h.opened hold₂).2.ne
    · obtain rfl := Option.some.inj hnew₂
      exact absurd heq (h.opened hold₁).2.ne
    · exact h.distinct hold₁ hold₂ heq

section ClientEvent

variable (h : Server.Ran libc clock g s trace) {fd : ℕ} {c : Client} (hc : s.clients fd = some c)
  {arrived : Bytes} {buffers : List Bytes}
  (heffect : ClientEffect libc clock s fd c arrived buffers s')

include h heffect

/-- The calls of the event are the commands of its steps. -/
theorem calls_effect :
    (history (trace ++ commandTrace libc clock s.log.length s.globals (argsOf buffers))).map
      Prod.fst = s'.calls clock := by
  rw [history_append, List.map_append, h.calls, calls_commandTrace, Server.calls, Server.calls,
    heffect.log, List.map_append, argsOf_eq, List.mapIdx_append, List.length_map]

/-- A client gets the replies of the event, if they are to its commands. -/
theorem pieces_effect (serial : ℕ) :
    piecesOf serial s'.log ((history (trace ++
        commandTrace libc clock s.log.length s.globals (argsOf buffers))).map Prod.snd) =
      piecesOf serial s.log ((history trace).map Prod.snd) ++ if serial = c.serial then
        (replay libc clock s.log.length s.globals (argsOf buffers)).1.flatten else [] := by
  -- one reply for each new call
  have hlen : (replay libc clock s.log.length s.globals (argsOf buffers)).1.length =
      buffers.length := (length_replay libc clock _ _ _).trans (List.length_map _)
  rw [history_append, List.map_append, replies_commandTrace, heffect.log,
    piecesOf_append h.length_eq, piecesOf_new serial hlen]

include hc

/-- The client of the event, if it stays, and the others. -/
theorem linearized_effect : s'.Linearized clock
    (trace ++ commandTrace libc clock s.log.length s.globals (argsOf buffers)) := by
  -- the others have the replies that they had
  have hothers : ∀ {fd' c'}, fd' ≠ fd → s.clients fd' = some c' →
      c'.received = s'.consumedBy c'.serial ++ c'.readBuf ∧
        c'.sent ++ c'.writeBuf = piecesOf c'.serial s'.log ((history (trace ++
          commandTrace libc clock s.log.length s.globals (argsOf buffers))).map Prod.snd) := by
    intro fd' c' hfd hc'
    have hne : c'.serial ≠ c.serial := fun heq => hfd (h.distinct hc' hc heq)
    rw [consumedBy_log heffect.log, pieces_effect h heffect, if_neg hne, if_neg hne,
      List.append_nil, List.append_nil]
    exact ⟨h.received hc', h.sent hc'⟩
  have hall : ∀ {fd' c'}, s'.clients fd' = some c' →
      c'.received = s'.consumedBy c'.serial ++ c'.readBuf ∧
        c'.sent ++ c'.writeBuf = piecesOf c'.serial s'.log ((history (trace ++
          commandTrace libc clock s.log.length s.globals (argsOf buffers))).map Prod.snd) := by
    intro fd' c'' hc''
    cases heffect.fate with
    | ends hclients hsame =>
      rw [hclients] at hc''
      cases hc''
    | closes c' hserial why hclients hgrown hsent hlost =>
      rw [hclients] at hc''
      rcases some_of_update hc'' with ⟨-, hnone⟩ | ⟨hfd, hold⟩
      · cases hnone
      · exact hothers hfd hold
    | stays c' hserial hclients hsame hclosing hsent hreceived hread =>
      rw [hclients] at hc''
      rcases some_of_update hc'' with ⟨-, hnew⟩ | ⟨hfd, hold⟩
      · obtain rfl := Option.some.inj hnew
        rw [consumedBy_log heffect.log, pieces_effect h heffect, hserial, if_pos rfl, if_pos rfl,
          hreceived, hsent, h.received hc, h.sent hc]
        refine ⟨?_, rfl⟩
        rw [List.append_assoc, List.append_assoc, hread]
      · exact hothers hfd hold
  exact ⟨calls_effect h heffect, fun hc' => (hall hc').1, fun hc' => (hall hc').2⟩

/-- **An event on a client** keeps the invariant, when its commands are steps of the store. -/
theorem client_event (hruns : Runs (Globals.Step libc) s.globals
    (commandTrace libc clock s.log.length s.globals (argsOf buffers)) s'.globals) :
    Server.Ran libc clock g s'
      (trace ++ commandTrace libc clock s.log.length s.globals (argsOf buffers)) := by
  -- the clients that are left have the serial numbers that they had
  have hcases : ∀ {fd' c'}, s'.clients fd' = some c' →
      c'.closing = false ∧ ∃ c₀, s.clients fd' = some c₀ ∧ c'.serial = c₀.serial := by
    intro fd' c'' hc''
    cases heffect.fate with
    | ends hclients hsame =>
      rw [hclients] at hc''
      cases hc''
    | closes c' hserial why hclients hgrown hsent hlost =>
      rw [hclients] at hc''
      rcases some_of_update hc'' with ⟨-, hnone⟩ | ⟨-, hold⟩
      · cases hnone
      · exact ⟨(h.opened hold).1, c'', hold, rfl⟩
    | stays c' hserial hclients hsame hclosing hsent hreceived hread =>
      rw [hclients] at hc''
      rcases some_of_update hc'' with ⟨rfl, hnew⟩ | ⟨-, hold⟩
      · obtain rfl := Option.some.inj hnew
        exact ⟨hclosing, c, hc, hserial⟩
      · exact ⟨(h.opened hold).1, c'', hold, rfl⟩
  refine ⟨linearized_effect h hc heffect, h.runs.append hruns, fun d hd => ?_, fun hc' => ?_,
    fun hc₁ hc₂ heq => ?_⟩
  · rw [heffect.log, List.mem_append] at hd
    rw [heffect.accepted]
    rcases hd with hd | hd
    · exact h.logged d hd
    · obtain ⟨b, -, rfl⟩ := List.mem_map.mp hd
      exact (h.opened hc).2
  · obtain ⟨hclosing, c₀, hold, hserial⟩ := hcases hc'
    rw [hserial, heffect.accepted]
    exact ⟨hclosing, (h.opened hold).2⟩
  · obtain ⟨-, c₁, hold₁, hserial₁⟩ := hcases hc₁
    obtain ⟨-, c₂, hold₂, hserial₂⟩ := hcases hc₂
    rw [hserial₁, hserial₂] at heq
    exact h.distinct hold₁ hold₂ heq

end ClientEvent

/-! ### Events and runs -/

/-- A read event, unless it ends the process. -/
theorem read (h : Server.Ran libc clock g s trace) {fd : ℕ} {c : Client}
    (hc : s.clients fd = some c) (chunks : List Bytes) (last : RecvEnd)
    (hrunning : (serverRead libc clock s fd c chunks last).ended = false) :
    ∃ more, Server.Ran libc clock g (serverRead libc clock s fd c chunks last) (trace ++ more) := by
  have hclosing := (h.opened hc).1
  obtain ⟨buffers, heffect⟩ := serverRead_effect libc clock s fd hclosing chunks last
  refine ⟨_, h.client_event hc heffect ?_⟩
  -- the commands of the event are those that `handle_read` has dispatched
  obtain ⟨cmds, hdispatched, hruns⟩ := runs_handleRead libc (fun n => clock (s.log.length + n))
    (c := s.conn c) hclosing chunks last (ended_settle hrunning).2
  have hcmds : argsOf buffers = cmds := by
    have hlog := log_serverRead libc clock s fd hclosing chunks last
    rw [heffect.log, List.map_append, argsOf_eq, hdispatched] at hlog
    exact List.append_cancel_left hlog
  -- its clock goes on from the calls that are in the log
  have hshift := commandTrace_shift libc clock s.log.length 0 s.globals cmds
  rw [Nat.add_zero] at hshift
  rw [hcmds, ← hshift]
  have hglobals : (serverRead libc clock s fd c chunks last).globals = _ := settle_globals
  rw [hglobals]
  exact hruns

/-- A write event. -/
theorem write (h : Server.Ran libc clock g s trace) {fd : ℕ} {c : Client}
    (hc : s.clients fd = some c) (sends : List ℕ) (last : SendEnd) :
    Server.Ran libc clock g (serverWrite s fd c sends last) trace := by
  have heffect := serverWrite_effect libc clock s fd (h.opened hc).1 sends last
  have hglobals : (serverWrite s fd c sends last).globals = s.globals := heffect.globals
  have hend := h.client_event hc heffect (by rw [hglobals]; exact .nil s.globals)
  exact (List.append_nil trace) ▸ hend

/-- **Every step** extends the run of the store, as long as the process runs. -/
theorem step (h : Server.Ran libc clock g s trace) (e : LoopEvent)
    (hrunning : (loopStep libc clock s e).ended = false) :
    ∃ more, Server.Ran libc clock g (loopStep libc clock s e) (trace ++ more) := by
  have hbefore := ended_loopStep libc clock hrunning
  rcases e with (fd | ⟨fd, read, write⟩) | ⟨now, key⟩
  · refine ⟨[], ?_⟩
    rw [loopStep, serverStep, hbefore, List.append_nil]
    exact h.accept fd
  · rw [loopStep, serverStep] at hrunning ⊢
    rw [ended_writeReady] at hrunning
    -- first the client reads
    obtain ⟨more, hread⟩ : ∃ more,
        Server.Ran libc clock g (readReady libc clock s fd read) (trace ++ more) := by
      rcases read with _ | ⟨chunks, last⟩
      · exact ⟨[], (List.append_nil trace).symm ▸ h⟩
      · rw [readReady] at hrunning ⊢
        split at hrunning
        · exact ⟨[], (List.append_nil trace).symm ▸ h⟩
        · rename_i c hc
          exact h.read hc chunks last hrunning
    -- then it writes, if it is still there
    refine ⟨more, ?_⟩
    rcases write with _ | ⟨sends, last⟩
    · exact hread
    · rw [writeReady]
      split
      · exact hread
      · rename_i c hc
        exact hread.write hc sends last
  · refine ⟨[(.sweep now key, [])], ?_⟩
    rw [loopStep, if_neg (by rw [hbefore]; decide)]
    exact h.sweep now key

/-- **Every run**: at the end, and at every moment on the way. -/
theorem run (events : List LoopEvent) (hrunning : (loopRun libc clock g events).ended = false) :
    ∃ trace, Server.Ran libc clock g (loopRun libc clock g events) trace ∧
      ∀ before, before <+: events →
        ∃ done, done <+: trace ∧ (loopRun libc clock g before).Linearized clock done := by
  induction events using List.reverseRecOn with
  | nil =>
    refine ⟨[], start libc clock g, fun before hbefore => ⟨[], List.prefix_rfl, ?_⟩⟩
    obtain rfl := List.prefix_nil.mp hbefore
    exact (start libc clock g).toLinearized
  | append_singleton events e ih =>
    have hsplit : loopRun libc clock g (events ++ [e]) =
        loopStep libc clock (loopRun libc clock g events) e := List.foldl_concat _ _ _ _
    rw [hsplit] at hrunning ⊢
    obtain ⟨trace, hran, hmoments⟩ := ih (ended_loopStep libc clock hrunning)
    obtain ⟨more, hstep⟩ := hran.step e hrunning
    refine ⟨trace ++ more, hstep, fun before hbefore => ?_⟩
    rcases List.prefix_concat_iff.mp hbefore with rfl | hearlier
    · rw [hsplit]
      exact ⟨_, List.prefix_rfl, hstep.toLinearized⟩
    · obtain ⟨done, hdone, hlin⟩ := hmoments before hearlier
      exact ⟨done, hdone.trans (List.prefix_append trace more), hlin⟩

end Server.Ran

/-- The commands of the run are calls of the server. -/
theorem Server.Linearized.of_log {s : Server} {trace : List (StoreEvent × Bytes)}
    {p : List Bytes → Prop} (h : s.Linearized clock trace) (hlog : ∀ d ∈ s.log, p d.args)
    {now : Int64} {args : List Bytes} {reply : Bytes}
    (hio : (StoreEvent.command now args, reply) ∈ trace) : p args := by
  have hcall : (now, args) ∈ s.calls clock := by
    rw [← h.calls]
    refine List.mem_map.mpr ⟨((now, args), reply), ?_, rfl⟩
    exact List.mem_filterMap.mpr ⟨_, hio, rfl⟩
  obtain ⟨n, hn, heq⟩ := List.mem_mapIdx.mp hcall
  obtain ⟨d, hd, hargs⟩ := List.mem_map.mp (List.getElem_mem hn)
  rw [(Prod.mk.inj heq).2] at hargs
  exact hargs ▸ hlog d hd

/-- So what all commands of the log are, all commands of the run are. -/
theorem Server.Linearized.plain {s : Server} {trace : List (StoreEvent × Bytes)}
    (h : s.Linearized clock trace) (hplain : ∀ d ∈ s.log, PlainArgs libc d.args) :
    ∀ io ∈ trace, StoreEvent.Plain libc io.1 := by
  rintro ⟨e, reply⟩ hio
  cases e with
  | sweep now key => trivial
  | command now args => exact h.of_log hplain hio

/-- **The server is one store.** From a database that represents the keyspace, through any events
of the clients and the network, with the sweep at any time: as long as the process runs, there is a
run of the specification to what the database represents now, such that the server has, at every
moment on the way, done what a beginning of this run says. -/
theorem event_loop_linearizable (hlibc : libc.Exact) {g : Globals} {σ : Keyspace}
    (hσ : StoreRel libc g.dict σ) (events : List LoopEvent)
    (hplain : ∀ d ∈ (loopRun libc clock g events).log, PlainArgs libc d.args)
    (hrunning : (loopRun libc clock g events).ended = false) :
    ∃ trace σ', Runs (Keyspace.Step libc) σ trace σ' ∧
      StoreRel libc (loopRun libc clock g events).globals.dict σ' ∧
      (loopRun libc clock g events).Linearized clock trace ∧
      ∀ before, before <+: events →
        ∃ done, done <+: trace ∧ (loopRun libc clock g before).Linearized clock done := by
  obtain ⟨trace, hran, hmoments⟩ := Server.Ran.run (g := g) events hrunning
  obtain ⟨σ', hruns, hend⟩ := (store_refines hlibc).runs hran.runs
    (hran.toLinearized.plain hplain) hσ
  exact ⟨trace, σ', hruns, hend, hran.toLinearized, hmoments⟩

/-- Two clients count, the second one in a pipeline, and the sweep looks at the counter in between.
-/
def counterEvents : List LoopEvent :=
  [.io (.accept 5), .io (.accept 6),
    .io (.ready 6 (some ([respArray [ascii "INCR", ascii "n"]], .again)) none),
    .sweep 0 (ascii "n"),
    .io (.ready 5 (some ([respArray [ascii "INCR", ascii "n"], ascii "*2" ++ crlf], .again)) none),
    .io (.ready 6 none (some ([2, 100], .again)))]

/-- The counters of the two clients come from one run. -/
theorem event_loop_linearizable_counter :
    let s := loopRun Libc.plain (fun _ => 1000) Session.fresh.toGlobals counterEvents
    (s.clients 5).map Client.writeBuf = some (ascii ":2" ++ crlf) ∧
      ∃ trace σ', Runs (Keyspace.Step Libc.plain) (fun _ => none) trace σ' ∧
        s.Linearized (fun _ => 1000) trace := by
  intro s
  have hlog : s.log.map Dispatch.args = [[ascii "INCR", ascii "n"], [ascii "INCR", ascii "n"]] := by
    decide
  have hplain : ∀ d ∈ s.log, PlainArgs Libc.plain d.args := by
    intro d hd hzadd
    have hargs : d.args ∈ s.log.map Dispatch.args := List.mem_map_of_mem hd
    rw [hlog, List.mem_pair, or_self] at hargs
    rw [hargs] at hzadd
    exact absurd hzadd (by decide)
  obtain ⟨trace, σ', hruns, -, hlin, -⟩ :=
    event_loop_linearizable Libc.plain_exact (g := Session.fresh.toGlobals) StoreRel.empty
      counterEvents hplain (by decide)
  exact ⟨by decide, trace, σ', hruns, hlin⟩

end Minired
