import Minired.Fragmentation

/-!
# The end of the stream

A client may send its commands and shut down its side. What it has sent comes in some drains,
the last of which ends with `recv` returning 0, and `handle_read` then closes the client at
once: the commands that this drain has brought are in `read_buf`, and nobody parses them.

`commandsOf` are the commands that should be dispatched, whatever the delivery. `due` are, at
any time, those dispatched and those that should still be. No drain changes what is due
(`due_drain`), so what is dispatched in the end is short of it by the commands that are whole
when the stream ends (`end_of_stream_iff`).
-/

namespace Minired

open Relational

/-- The complete commands at the front of a stream, up to the first protocol error or `QUIT`. -/
def commandsLoop : ℕ → Bytes → List (List Bytes)
  | 0, _ => []
  | fuel + 1, b =>
    let res := respParse b
    match res.status with
    | .ok =>
      res.args ::
        if findCommand (arg res.args 0) = some .QUIT then []
        else commandsLoop fuel (b.drop res.consumed)
    | _ => []

/-- The commands of a stream. Every one takes a byte at least. -/
def commandsOf (b : Bytes) : List (List Bytes) := commandsLoop (b.length + 1) b

variable (libc : Libc) (clock : ℕ → Int64)

/-- A stream that the client ends comes in some drains and a last one, in which `recv` returns 0
behind the chunks. -/
def deliver (c : Conn) (drains : List (List Bytes)) (last : List Bytes) : Conn :=
  let c := drains.foldl (drain libc clock) c
  if c.status = .connected then handleRead libc clock c last .eof else c

/-- Nothing is dispatched in the last drain. -/
theorem dispatched_deliver (c : Conn) (drains : List (List Bytes)) (last : List Bytes) :
    (deliver libc clock c drains last).dispatched =
      (drains.foldl (drain libc clock) c).dispatched := by
  rw [deliver]
  split_ifs
  · rfl
  · rfl

/-! ### The commands of a stream -/

section Commands

variable {b : Bytes}

/-- Where nothing can be parsed there is no command. -/
theorem commandsLoop_of_ne_ok (h : (respParse b).status ≠ .ok) (fuel : ℕ) :
    commandsLoop fuel b = [] := by
  cases fuel with
  | zero => rfl
  | succ fuel =>
    rw [commandsLoop]
    rcases hstatus : (respParse b).status with _ | _ | _
    · exact absurd hstatus h
    · rfl
    · rfl

/-- The first command, and those behind it unless it is `QUIT`. -/
theorem commandsLoop_ok (h : (respParse b).status = .ok) (fuel : ℕ) :
    commandsLoop (fuel + 1) b = (respParse b).args ::
      if findCommand (arg (respParse b).args 0) = some .QUIT then []
      else commandsLoop fuel (b.drop (respParse b).consumed) := by
  rw [commandsLoop, h]

/-- Any amount of fuel above the number of bytes does the same. -/
theorem commandsLoop_fuel {m n : ℕ} (hm : b.length < m) (hn : b.length < n) :
    commandsLoop m b = commandsLoop n b := by
  induction m generalizing b n with
  | zero => exact absurd hm (Nat.not_lt_zero _)
  | succ m ih =>
    obtain ⟨n, rfl⟩ : ∃ k, n = k + 1 := ⟨n - 1, by omega⟩
    -- a command leaves fewer bytes, anything else ends both loops
    by_cases hok : (respParse b).status = .ok
    · have hlt := length_drop_consumed hok
      rw [commandsLoop_ok hok, commandsLoop_ok hok, ih (n := n) (by omega) (by omega)]
    · rw [commandsLoop_of_ne_ok hok, commandsLoop_of_ne_ok hok]

/-- So it is for all of a buffer. -/
theorem commandsOf_ok (h : (respParse b).status = .ok) :
    commandsOf b = (respParse b).args ::
      if findCommand (arg (respParse b).args 0) = some .QUIT then []
      else commandsOf (b.drop (respParse b).consumed) := by
  rw [commandsOf, commandsLoop_ok h, commandsOf,
    commandsLoop_fuel (length_drop_consumed h) (Nat.lt_succ_self _)]

/-- There are none exactly when the first one is not complete. -/
theorem commandsOf_eq_nil : commandsOf b = [] ↔ (respParse b).status ≠ .ok := by
  refine ⟨fun hnil hok => ?_, fun h => commandsLoop_of_ne_ok h _⟩
  rw [commandsOf_ok hok] at hnil
  cases hnil

end Commands

/-! ### What is due -/

/-- What has been dispatched and what should still be, when `y` is the rest of the stream. -/
def due (c : Conn) (y : Bytes) : List (List Bytes) :=
  c.dispatched ++ if c.status = .connected then commandsOf (c.readBuf ++ y) else []

/-- A connection that has ended is due nothing more. -/
theorem due_ended {c : Conn} (h : c.status ≠ .connected) (y : Bytes) : due c y = c.dispatched := by
  rw [due, if_neg h, List.append_nil]

/-- `QUIT` closes the client, and no other command does. -/
theorem closing_dispatchCommand {now : Int64} {cmd : List Bytes} {s s' : Session}
    (hs : s.Sound false) (hexec : exec (dispatchCommand libc now cmd) s = (.ok (), s')) :
    s'.closing = true ↔ findCommand (arg cmd 0) = some .QUIT := by
  constructor
  · intro hclosing
    by_contra hquit
    -- any other command would have kept the client open
    have hsound := keeps_dispatchCommand libc now hquit s hs
    rw [hexec] at hsound
    have hopen := hsound.closing_eq
    rw [hclosing] at hopen
    cases hopen
  · intro hquit
    cases cmd with
    | nil => exact absurd hquit (by decide)
    | cons name args =>
      have hfind : findCommand name = some .QUIT := hquit
      rw [dispatchCommand_of_find hfind] at hexec
      -- `QUIT` is handled by `cmdQuit`, which sets `closing` last
      have hs' : s' = (exec (cmdQuit (name :: args)) s).2 := by
        rw [show exec (cmdQuit (name :: args)) s = (.ok (), s') from hexec]
      rw [hs']
      rfl

/-- **The loop** changes nothing of what is due, as long as the handlers return. -/
theorem due_parseLoop {fuel : ℕ} {c : Conn} (hfuel : c.readBuf.length < fuel)
    (hopen : c.status = .connected) (hsound : c.session.Sound false)
    (hsettled : ParsesSettled libc clock c) (y : Bytes)
    (hreturns : (parseLoop libc clock fuel c).status ≠ .crashed) :
    due (parseLoop libc clock fuel c) y = due c y ∧
      ((parseLoop libc clock fuel c).status = .connected →
        (parseLoop libc clock fuel c).session.Sound false) := by
  induction fuel generalizing c with
  | zero => exact absurd hfuel (Nat.not_lt_zero _)
  | succ fuel ih =>
    have hstable := hsettled.stable libc clock hopen
    -- a command in front is also the first one of the whole stream
    have hdue : ∀ s, (respParse c.readBuf).status = .ok →
        due c y = (c.next s).dispatched ++
          if findCommand (arg (respParse c.readBuf).args 0) = some .QUIT then []
          else commandsOf ((c.next s).readBuf ++ y) := by
      intro s hparse
      have hsame : respParse (c.readBuf ++ y) = respParse c.readBuf :=
        hstable.parse_more hparse y
      have hbehind : (c.readBuf ++ y).drop (respParse c.readBuf).consumed =
          (c.next s).readBuf ++ y := by
        have hnext := congrArg Conn.readBuf (more_next hparse hsame s)
        rw [← hsame]
        exact hnext
      rw [due, if_pos hopen, commandsOf_ok (by rw [hsame]; exact hparse), hsame, hbehind, Conn.next]
      exact (List.append_assoc c.dispatched [_] _).symm
    cases loopCase libc clock c with
    | waits hparse =>
      rw [parseLoop_incomplete libc clock hparse]
      exact ⟨rfl, fun _ => hsound⟩
    | malformed hparse =>
      -- malformed now, malformed for good: nothing else is due
      have herror := (hstable y).2 hparse
      rw [parseLoop_error libc clock hparse, due_ended, due, if_pos hopen,
        commandsOf_eq_nil.mpr (by rw [herror]; decide)]
      · exact ⟨(List.append_nil _).symm, fun h => by cases h⟩
      · exact fun h => by cases h
    | crashes hparse hexec =>
      rw [parseLoop_crash libc clock hparse hexec] at hreturns
      exact absurd rfl hreturns
    | @quits s hparse hexec hquit =>
      -- behind `QUIT` nothing is due
      have hclosing := (closing_dispatchCommand libc hsound hexec).mp hquit
      rw [parseLoop_quit libc clock hparse hexec hquit, due_ended, hdue s hparse, if_pos hclosing,
        List.append_nil]
      · exact ⟨rfl, fun h => by cases h⟩
      · exact fun h => by cases h
    | @continues s hparse hexec hgoes =>
      -- the loop goes on, so the command was not `QUIT`
      have hclosing : findCommand (arg (respParse c.readBuf).args 0) ≠ some .QUIT := by
        intro hfind
        rw [(closing_dispatchCommand libc hsound hexec).mpr hfind] at hgoes
        cases hgoes
      have hnext := parseLoop_next libc clock hparse hexec hgoes
      have hlt := length_next hparse s
      have hsound' := keeps_dispatchCommand libc (clock c.dispatched.length) hclosing c.session
        hsound
      rw [hexec] at hsound'
      rw [hnext] at hreturns ⊢
      rw [hdue s hparse, if_neg hclosing]
      have hrest := ih (c := c.next s) (by omega) hopen hsound'
        (hsettled.next libc clock hnext) hreturns
      have hstill : (c.next s).status = .connected := hopen
      rwa [due.eq_def (c.next s), if_pos hstill] at hrest

/-- **A drain** does not either. -/
theorem due_drain {c : Conn} (hsound : c.status = .connected → c.session.Sound false)
    {chunks : List Bytes}
    (hsettled : c.status = .connected → ParsesSettled libc clock (c.more chunks.flatten))
    (y : Bytes) (hreturns : (drain libc clock c chunks).status ≠ .crashed) :
    due (drain libc clock c chunks) y = due c (chunks.flatten ++ y) ∧
      ((drain libc clock c chunks).status = .connected →
        (drain libc clock c chunks).session.Sound false) := by
  by_cases hopen : c.status = .connected
  · -- `d` is what the loop leaves; the interest in write events is no part of what is due
    obtain ⟨d, hd⟩ : ∃ d, d = parseLoop libc clock ((c.more chunks.flatten).readBuf.length + 1)
        (c.more chunks.flatten) := ⟨_, rfl⟩
    obtain ⟨want, hdrain⟩ : ∃ want, drain libc clock c chunks = { d with wantWrite := want } := by
      rw [drain, if_pos hopen, handleRead, foldl_chunks, hd]
      dsimp only
      split_ifs
      · exact ⟨true, rfl⟩
      · exact ⟨_, rfl⟩
    rw [hdrain] at hreturns ⊢
    have hloop := due_parseLoop libc clock (c := c.more chunks.flatten) (Nat.lt_succ_self _) hopen
      (hsound hopen) (hsettled hopen) y (hd ▸ hreturns)
    rw [← hd] at hloop
    refine ⟨Eq.trans hloop.1 ?_, hloop.2⟩
    have hmore : (c.more chunks.flatten).status = .connected := hopen
    rw [due, due, if_pos hopen, if_pos hmore, Conn.more]
    dsimp only
    rw [List.append_assoc]
  · -- nobody reads from a connection that has ended
    rw [drain, if_neg hopen, due_ended hopen, due_ended hopen]
    exact ⟨rfl, fun h => absurd h hopen⟩

/-- **Nothing is lost** in drains that end with `EAGAIN`. -/
theorem due_drains (drains : List (List Bytes)) {c : Conn}
    (hsound : c.status = .connected → c.session.Sound false)
    (hsettled : DrainsSettled libc clock c drains) (y : Bytes)
    (hreturns : (drains.foldl (drain libc clock) c).status ≠ .crashed) :
    due (drains.foldl (drain libc clock) c) y = due c (drains.flatten.flatten ++ y) := by
  induction drains generalizing c with
  | nil => rfl
  | cons chunks drains ih =>
    obtain ⟨hfirst, hsettled⟩ := hsettled
    -- a server that has ended would still have done so after the later drains
    have hfirst_returns : (drain libc clock c chunks).status ≠ .crashed := by
      intro hcrashed
      refine hreturns ?_
      rw [List.foldl_cons, foldl_drain_ended libc clock (by rw [hcrashed]; decide), hcrashed]
    obtain ⟨hdue, hsound'⟩ := due_drain libc clock hsound hfirst (drains.flatten.flatten ++ y)
      hfirst_returns
    rw [List.foldl_cons, ih hsound' hsettled hreturns, hdue, List.flatten_cons,
      List.flatten_append, List.append_assoc]

/-- Without a complete command nothing is dispatched. -/
theorem dispatched_nil (drains : List (List Bytes)) {c : Conn} (hnone : c.dispatched = [])
    (hparts : c.status = .connected → ∀ p, p <+: drains.flatten.flatten →
      (respParse (c.readBuf ++ p)).status ≠ .ok) :
    (drains.foldl (drain libc clock) c).dispatched = [] := by
  induction drains generalizing c with
  | nil => exact hnone
  | cons chunks drains ih =>
    by_cases hopen : c.status = .connected
    · have hparts := hparts hopen
      rw [List.flatten_cons, List.flatten_append] at hparts
      have hsame := drain_feed libc clock c chunks
      -- the first buffer that is parsed begins the stream
      have hnot := hparts chunks.flatten (List.prefix_append _ _)
      rw [feed, if_pos hopen, serveAll] at hsame
      cases loopCase libc clock (c.more chunks.flatten) with
      | waits hparse =>
        rw [parseLoop_incomplete libc clock hparse] at hsame
        refine ih (hsame.dispatched.trans hnone) fun hopen' p hp => ?_
        -- it waits, and so the next one begins the stream as well
        rw [hsame.readBuf hopen', Conn.more]
        dsimp only
        rw [List.append_assoc]
        exact hparts _ ((List.prefix_append_right_inj _).mpr hp)
      | malformed hparse =>
        rw [parseLoop_error libc clock hparse] at hsame
        refine ih (hsame.dispatched.trans hnone) fun hopen' => ?_
        rw [hsame.status] at hopen'
        cases hopen'
      | crashes hparse => exact absurd hparse hnot
      | quits hparse => exact absurd hparse hnot
      | continues hparse => exact absurd hparse hnot
    · rw [foldl_drain_ended libc clock hopen]
      exact hnone

/-- **The end of the stream.** A client of a reachable server sends a stream and shuts down its
side. That the complete commands of the stream are dispatched however it is delivered holds only
of streams of which no beginning is a complete command. In a delivery whose buffers are settled
and whose commands return, they are dispatched if and only if the last drain, which brings the
end of the stream, leaves no complete command in front. -/
theorem end_of_stream_iff {s : Session} (hs : Reachable libc s.dict) (hopen : s.closing = false) :
    (∀ bytes, (∀ drains last, Received drains → Received [last] →
        drains.flatten.flatten ++ last.flatten = bytes →
        (deliver libc clock (.accepted s) drains last).dispatched = commandsOf bytes) ↔
      ∀ p, p <+: bytes → (respParse p).status ≠ .ok) ∧
    ∀ drains last, DrainsSettled libc clock (.accepted s) drains →
      let c := drains.foldl (drain libc clock) (.accepted s)
      c.status ≠ .crashed →
      ((deliver libc clock (.accepted s) drains last).dispatched =
          commandsOf (drains.flatten.flatten ++ last.flatten) ↔
        (c.status = .connected → (respParse (c.readBuf ++ last.flatten)).status ≠ .ok)) := by
  refine ⟨fun bytes => ⟨fun h p hp hok => ?_, fun h drains last _ _ hbytes => ?_⟩, ?_⟩
  · -- suppose that `p` is a complete command
    obtain ⟨q, rfl⟩ := hp
    have hbytes : ∀ y : Bytes, (y.map fun b => [b]).flatten = y := by
      intro y
      have hflat := flatten_bytes y
      rwa [List.flatten_singleton] at hflat
    -- everything with the end of the stream, or the complete command before that
    have hnone := h [] ((p ++ q).map fun b => [b]) (fun _ h => absurd h List.not_mem_nil)
      (received_bytes _) (hbytes _)
    have hsome := h [p.map fun b => [b]] (q.map fun b => [b]) (received_bytes p) (received_bytes q)
      (by rw [flatten_bytes, hbytes])
    rw [← hnone, dispatched_deliver, dispatched_deliver] at hsome
    -- in the second delivery the command has been dispatched before the end
    have hfirst := first_dispatched libc clock s hok
    rw [← (drain_bytes libc clock (.accepted s) p).dispatched] at hfirst
    have hnil : (drain libc clock (.accepted s) (p.map fun b => [b])).dispatched = [] := hsome
    rw [hnil] at hfirst
    exact absurd (List.prefix_nil.mp hfirst) (List.cons_ne_nil _ _)
  · -- no complete command anywhere: none dispatched, none due
    rw [dispatched_deliver, commandsOf_eq_nil.mpr (h bytes (List.prefix_refl _))]
    refine dispatched_nil libc clock drains rfl fun _ p hp => ?_
    exact h p (hp.trans (hbytes ▸ List.prefix_append _ _))
  · intro drains last hsettled c hreturns
    have hdue := due_drains libc clock drains (c := Conn.accepted s) (fun _ => ⟨hs.wf, hopen⟩)
      hsettled last.flatten hreturns
    -- at the beginning all the commands are due, and in the end those that are left
    have hall : due (Conn.accepted s) (drains.flatten.flatten ++ last.flatten) =
        commandsOf (drains.flatten.flatten ++ last.flatten) := rfl
    rw [dispatched_deliver, ← hall, ← hdue]
    show c.dispatched = due c last.flatten ↔ _
    rw [due, List.self_eq_append_right]
    by_cases hconnected : c.status = .connected
    · rw [if_pos hconnected, commandsOf_eq_nil]
      exact ⟨fun h _ => h, fun h => h hconnected⟩
    · rw [if_neg hconnected]
      exact ⟨fun _ h => absurd h hconnected, fun _ => rfl⟩

/-- A `PING`, and the end of the stream by itself. -/
theorem end_of_stream_own :
    let ping := respArray [ascii "PING"]
    (deliver Libc.plain (fun _ => 1000) (.accepted Session.fresh) [[ping]] []).dispatched =
      commandsOf ([[ping]].flatten.flatten ++ [].flatten) := by
  intro ping
  refine ((end_of_stream_iff Libc.plain (fun _ => 1000) reachable_fresh rfl).2 [[ping]] []
    (by decide) (by decide)).mpr fun _ => ?_
  decide

/-- The same stream with its end in the same drain: the `PING` has been received, and it is not
dispatched. -/
theorem command_lost_at_end :
    let ping := respArray [ascii "PING"]
    let c := fun drains last => deliver Libc.plain (fun _ => 1000) (.accepted Session.fresh) drains
      last
    Received [[ping]] ∧ commandsOf ping = [[ascii "PING"]] ∧
      [[ping]].flatten.flatten ++ [].flatten = ping ∧
      [].flatten.flatten ++ [ping].flatten = ping ∧
      (c [[ping]] []).dispatched = [[ascii "PING"]] ∧ (c [] [ping]).dispatched = [] := by
  intro ping c
  refine ⟨?_, by decide, by decide, by decide, by decide, by decide⟩
  unfold Received
  decide

end Minired
