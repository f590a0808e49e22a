import Minired.EventLoop

/-!
# What the event loop keeps

`Server.Inv` says of every connected client that its buffers and what has gone over its socket
make up its commands and their replies, and of every client that the server has closed what was
lost with it. The two kinds of events on a client and the accept of a new one keep it.

`event_loop_correct` is what it says of the connected clients. `orderly_close_loses` is what it
says of the others: `client_close` deletes `write_buf`, and the reply to `QUIT`, or the line for
malformed input, is always still in it.
-/

namespace Minired

open Relational

variable (libc : Libc) (clock : ℕ → Int64) (g : Globals)

/-- What holds of a connected client. -/
structure Accounted (s : Server) (c : Client) : Prop where
  closing : c.closing = false
  accepted : c.serial < s.accepted
  sent : c.sent ++ c.writeBuf = s.repliesTo libc clock g c.serial
  received : c.received = s.consumedBy c.serial ++ c.readBuf

/-- What holds of a client that is closed. -/
structure Settled (s : Server) (c : Client) (why : ConnStatus) : Prop where
  accepted : c.serial < s.accepted
  sent : why.IsOrderly →
    c.sent ++ c.writeBuf = s.repliesTo libc clock g c.serial ++ why.lastLine
  lost : why.IsOrderly → c.writeBuf ≠ []

/-- **The invariant.** -/
structure Server.Inv (s : Server) : Prop where
  globals : s.globals = (replay libc clock 0 g (s.log.map Dispatch.args)).2
  logged : ∀ d ∈ s.log, d.serial < s.accepted
  client : ∀ {fd c}, s.clients fd = some c → Accounted libc clock g s c
  distinct : ∀ {fd fd' c c'}, s.clients fd = some c → s.clients fd' = some c' →
    c.serial = c'.serial → fd = fd'
  closed : ∀ {c why}, (c, why) ∈ s.closed → Settled libc clock g s c why ∧
    ∀ {fd c'}, s.clients fd = some c' → c'.serial ≠ c.serial

/-! ### A log that grows -/

section Log

variable {s s' : Server} {n : ℕ} {buffers : List Bytes}

/-- The arguments of what one client has sent. -/
theorem argsOf_eq (n : ℕ) (buffers : List Bytes) :
    (buffers.map (Dispatch.mk n)).map Dispatch.args = argsOf buffers := List.map_map ..

/-- And its bytes. -/
theorem framesOf_eq (n : ℕ) (buffers : List Bytes) :
    ((buffers.map (Dispatch.mk n)).map Dispatch.frame).flatten = framesOf buffers := by
  rw [List.map_map, framesOf, List.flatMap_def]
  rfl

/-- The pieces that new calls of one client bring. -/
theorem piecesOf_new (serial : ℕ) {pieces : List Bytes} (hlen : pieces.length = buffers.length) :
    piecesOf serial (buffers.map (Dispatch.mk n)) pieces =
      if serial = n then pieces.flatten else [] := by
  -- all the new calls are for the client `n`
  have hserial : ∀ d ∈ buffers.map (Dispatch.mk n), d.serial = n := by
    intro d hd
    obtain ⟨b, -, rfl⟩ := List.mem_map.mp hd
    rfl
  split
  case isTrue h =>
    refine piecesOf_own (by rw [List.length_map, hlen]) fun d hd => ?_
    rw [hserial d hd, h]
  case isFalse h =>
    refine piecesOf_others fun d hd => ?_
    rw [hserial d hd]
    exact Ne.symm h

variable (hglobals : s.globals = (replay libc clock 0 g (s.log.map Dispatch.args)).2)
  (hlog : s'.log = s.log ++ buffers.map (Dispatch.mk n))

include hlog

include hglobals in
/-- A longer log is replayed on top of the shorter one. -/
theorem replay_log : replay libc clock 0 g (s'.log.map Dispatch.args) =
    let r := replay libc clock s.log.length s.globals (argsOf buffers)
    ((replay libc clock 0 g (s.log.map Dispatch.args)).1 ++ r.1, r.2) := by
  rw [hlog, List.map_append, replay_append, argsOf_eq]
  dsimp only
  rw [← hglobals, List.length_map, Nat.zero_add]

include hglobals in
/-- The replies to a client grow by those to its own commands. -/
theorem repliesTo_log (serial : ℕ) : s'.repliesTo libc clock g serial =
    s.repliesTo libc clock g serial ++ if serial = n then
      (replay libc clock s.log.length s.globals (argsOf buffers)).1.flatten else [] := by
  -- one reply for each new call
  have hlen : (replay libc clock s.log.length s.globals (argsOf buffers)).1.length =
      buffers.length := (length_replay libc clock _ _ _).trans (List.length_map _)
  rw [Server.repliesTo, replay_log libc clock g hglobals hlog, hlog, piecesOf_append,
    piecesOf_new serial hlen]
  · rfl
  · rw [length_replay, List.length_map]

/-- So do the bytes taken from it. -/
theorem consumedBy_log (serial : ℕ) :
    s'.consumedBy serial =
      s.consumedBy serial ++ if serial = n then framesOf buffers else [] := by
  rw [Server.consumedBy, hlog, List.map_append, piecesOf_append, piecesOf_new serial, framesOf_eq]
  · rfl
  · rw [List.length_map, List.length_map]
  · rw [List.length_map]

end Log

variable {libc clock g} {s s' : Server}

/-- Calls that are not for a client change nothing that it has. -/
theorem Accounted.frame {c c' : Client} {buffers : List Bytes} (h : Accounted libc clock g s c')
    (hglobals : s.globals = (replay libc clock 0 g (s.log.map Dispatch.args)).2)
    (hlog : s'.log = s.log ++ buffers.map (Dispatch.mk c.serial))
    (haccepted : s'.accepted = s.accepted) (hne : c'.serial ≠ c.serial) :
    Accounted libc clock g s' c' := by
  refine ⟨h.closing, haccepted ▸ h.accepted, ?_, ?_⟩
  · rw [repliesTo_log libc clock g hglobals hlog, if_neg hne, List.append_nil]
    exact h.sent
  · rw [consumedBy_log hlog, if_neg hne, List.append_nil]
    exact h.received

/-- A client stays settled while others are served. -/
theorem Settled.frame {c : Client} {why : ConnStatus} {n : ℕ} {buffers : List Bytes}
    (h : Settled libc clock g s c why)
    (hglobals : s.globals = (replay libc clock 0 g (s.log.map Dispatch.args)).2)
    (hlog : s'.log = s.log ++ buffers.map (Dispatch.mk n))
    (haccepted : s'.accepted = s.accepted) (hne : c.serial ≠ n) :
    Settled libc clock g s' c why := by
  refine ⟨haccepted ▸ h.accepted, fun horderly => ?_, h.lost⟩
  rw [repliesTo_log libc clock g hglobals hlog, if_neg hne, List.append_nil]
  exact h.sent horderly

/-- Another client at the descriptor `fd`, or none. -/
theorem some_of_update {clients : ℕ → Option Client} {fd fd' : ℕ} {o : Option Client}
    {c : Client} (h : Function.update clients fd o fd' = some c) :
    fd' = fd ∧ o = some c ∨ fd' ≠ fd ∧ clients fd' = some c := by
  by_cases hfd : fd' = fd
  · subst hfd
    rw [Function.update_self] at h
    exact Or.inl ⟨rfl, h⟩
  · rw [Function.update_of_ne hfd] at h
    exact Or.inr ⟨hfd, h⟩

namespace Server.Inv

section ClientEvent

variable (h : s.Inv libc clock g) {fd : ℕ} {c : Client} (hc : s.clients fd = some c)
  {arrived : Bytes} {buffers : List Bytes}
  (heffect : ClientEffect libc clock s fd c arrived buffers s')

include h heffect

/-- The database is what the log makes of it. -/
theorem globals_effect : s'.globals = (replay libc clock 0 g (s'.log.map Dispatch.args)).2 := by
  rw [heffect.globals, replay_log libc clock g h.globals heffect.log]

include hc

/-- Only clients that were accepted are in the log. -/
theorem logged_effect : ∀ d ∈ s'.log, d.serial < s'.accepted := by
  intro d hd
  rw [heffect.log, List.mem_append] at hd
  rw [heffect.accepted]
  rcases hd with hd | hd
  · exact h.logged d hd
  · -- the new calls are those of the client
    obtain ⟨b, -, rfl⟩ := List.mem_map.mp hd
    exact (h.client hc).accepted

/-- The others keep what they have. -/
theorem others_effect {fd' : ℕ} {c' : Client} (hfd : fd' ≠ fd) (hc' : s.clients fd' = some c') :
    Accounted libc clock g s' c' ∧ c'.serial ≠ c.serial := by
  have hne : c'.serial ≠ c.serial := fun heq => hfd (h.distinct hc' hc heq)
  exact ⟨(h.client hc').frame h.globals heffect.log heffect.accepted hne, hne⟩

/-- So do those that were closed before. -/
theorem closed_effect {c' : Client} {why : ConnStatus} (hmem : (c', why) ∈ s.closed) :
    Settled libc clock g s' c' why ∧ c.serial ≠ c'.serial ∧
      ∀ {fd c''}, s.clients fd = some c'' → c''.serial ≠ c'.serial := by
  obtain ⟨hsettled, hfresh⟩ := h.closed hmem
  have hne := hfresh hc
  exact ⟨hsettled.frame h.globals heffect.log heffect.accepted hne.symm, hne, hfresh⟩

/-- A client that stays is accounted for, with the replies to its new commands. -/
theorem accounted_effect {c' : Client} (hserial : c'.serial = c.serial)
    (hclosing : c'.closing = false)
    (hsent : c'.sent ++ c'.writeBuf = c.sent ++ c.writeBuf ++
      (replay libc clock s.log.length s.globals (argsOf buffers)).1.flatten)
    (hreceived : c'.received = c.received ++ arrived)
    (hread : c.readBuf ++ arrived = framesOf buffers ++ c'.readBuf) :
    Accounted libc clock g s' c' := by
  have hown := h.client hc
  have hreplies := repliesTo_log libc clock g h.globals heffect.log c.serial
  have hconsumed := consumedBy_log heffect.log c.serial
  rw [if_pos rfl] at hreplies hconsumed
  refine ⟨hclosing, ?_, ?_, ?_⟩
  · rw [hserial, heffect.accepted]
    exact hown.accepted
  · rw [hserial, hreplies, hsent, hown.sent]
  · rw [hserial, hconsumed, hreceived, hown.received, List.append_assoc, List.append_assoc, hread]

/-- A client that is closed has had its replies, and the last line. -/
theorem settled_effect {c' : Client} {why : ConnStatus} (hserial : c'.serial = c.serial)
    (hsent : why.IsOrderly → c'.sent ++ c'.writeBuf = c.sent ++ c.writeBuf ++
      ((replay libc clock s.log.length s.globals (argsOf buffers)).1.flatten ++ why.lastLine))
    (hlost : why.IsOrderly → c'.writeBuf ≠ []) : Settled libc clock g s' c' why := by
  have hown := h.client hc
  have hreplies := repliesTo_log libc clock g h.globals heffect.log c.serial
  rw [if_pos rfl] at hreplies
  refine ⟨?_, fun horderly => ?_, hlost⟩
  · rw [hserial, heffect.accepted]
    exact hown.accepted
  · rw [hsent horderly, hserial, hreplies, hown.sent, List.append_assoc]

/-- **An event on a client** keeps the invariant. -/
theorem client_event : s'.Inv libc clock g := by
  have hglobals := globals_effect h heffect
  have hlogged := logged_effect h hc heffect
  cases heffect.fate with
  | ends hclients hsame =>
    -- no client is left, and only what is said of the closed ones remains
    refine ⟨hglobals, hlogged, fun hc' => ?_, fun hc' => ?_, fun hmem => ?_⟩
    · rw [hclients] at hc'
      cases hc'
    · rw [hclients] at hc'
      cases hc'
    · refine ⟨(closed_effect h hc heffect (hsame ▸ hmem)).1, fun hc' => ?_⟩
      rw [hclients] at hc'
      cases hc'
  | stays c' hserial hclients hsame hclosing hsent hreceived hread =>
    have hcases : ∀ {fd' c''}, s'.clients fd' = some c'' →
        fd' = fd ∧ c'' = c' ∨ fd' ≠ fd ∧ s.clients fd' = some c'' := by
      intro fd' c'' hc''
      rw [hclients] at hc''
      exact (some_of_update hc'').imp_left fun h => ⟨h.1, (Option.some.inj h.2).symm⟩
    refine ⟨hglobals, hlogged, fun hc'' => ?_, fun hc₁ hc₂ heq => ?_, fun hmem => ?_⟩
    · rcases hcases hc'' with ⟨-, rfl⟩ | ⟨hfd, hold⟩
      · exact accounted_effect h hc heffect hserial hclosing hsent hreceived hread
      · exact (others_effect h hc heffect hfd hold).1
    · -- two clients of one serial number: the client of the event, or older ones
      rcases hcases hc₁ with ⟨rfl, rfl⟩ | ⟨hfd₁, hold₁⟩ <;>
        rcases hcases hc₂ with ⟨rfl, rfl⟩ | ⟨hfd₂, hold₂⟩
      · rfl
      · exact absurd (heq.symm.trans hserial) (others_effect h hc heffect hfd₂ hold₂).2
      · exact absurd (heq.trans hserial) (others_effect h hc heffect hfd₁ hold₁).2
      · exact h.distinct hold₁ hold₂ heq
    · obtain ⟨hsettled, hne, hfresh⟩ := closed_effect h hc heffect (hsame ▸ hmem)
      refine ⟨hsettled, fun hc'' => ?_⟩
      rcases hcases hc'' with ⟨-, rfl⟩ | ⟨-, hold⟩
      · rwa [hserial]
      · exact hfresh hold
  | closes c' hserial why hclients hgrown hsent hlost =>
    have hcases : ∀ {fd' c''}, s'.clients fd' = some c'' → fd' ≠ fd ∧ s.clients fd' = some c'' := by
      intro fd' c'' hc''
      rw [hclients] at hc''
      exact (some_of_update hc'').resolve_left fun h => by cases h.2
    refine ⟨hglobals, hlogged, fun hc'' => ?_, fun hc₁ hc₂ heq => ?_, fun hmem => ?_⟩
    · obtain ⟨hfd, hold⟩ := hcases hc''
      exact (others_effect h hc heffect hfd hold).1
    · exact h.distinct (hcases hc₁).2 (hcases hc₂).2 heq
    · -- closed before, or just now
      rw [hgrown, List.mem_append, List.mem_singleton] at hmem
      rcases hmem with hmem | hmem
      · obtain ⟨hsettled, -, hfresh⟩ := closed_effect h hc heffect hmem
        exact ⟨hsettled, fun hc'' => hfresh (hcases hc'').2⟩
      · obtain ⟨rfl, rfl⟩ := Prod.mk.inj hmem
        refine ⟨settled_effect h hc heffect hserial hsent hlost, fun hc'' => ?_⟩
        rw [hserial]
        exact (others_effect h hc heffect (hcases hc'').1 (hcases hc'').2).2

end ClientEvent

/-- **A new client** has a serial number that nobody has had. -/
theorem accept (h : s.Inv libc clock g) (fd : ℕ) : (handleAccept s fd).Inv libc clock g := by
  unfold handleAccept
  split_ifs with hused
  · exact h
  -- nobody has been logged under the next serial number
  have hfresh : s.repliesTo libc clock g s.accepted = [] ∧ s.consumedBy s.accepted = [] :=
    ⟨piecesOf_others fun d hd => (h.logged d hd).ne, piecesOf_others fun d hd => (h.logged d hd).ne⟩
  have hgrow : ∀ {n}, n < s.accepted → n < s.accepted + 1 := fun hn => hn.trans (Nat.lt_succ_self _)
  refine ⟨h.globals, fun d hd => hgrow (h.logged d hd), fun hc => ?_, fun hc₁ hc₂ heq => ?_,
    fun hmem => ?_⟩
  · rcases some_of_update hc with ⟨-, hnew⟩ | ⟨-, hold⟩
    · obtain rfl := Option.some.inj hnew
      -- the new client has sent nothing and is due nothing
      refine ⟨rfl, Nat.lt_succ_self _, hfresh.1.symm, ?_⟩
      exact (List.append_nil _).symm.trans (congrArg (· ++ []) hfresh.2.symm)
    · have hclient := h.client hold
      exact ⟨hclient.closing, hgrow hclient.accepted, hclient.sent, hclient.received⟩
  · rcases some_of_update hc₁ with ⟨rfl, hnew₁⟩ | ⟨-, hold₁⟩ <;>
      rcases some_of_update hc₂ with ⟨rfl, hnew₂⟩ | ⟨-, hold₂⟩
    · rfl
    · obtain rfl := Option.some.inj hnew₁
      exact absurd heq.symm (h.client hold₂).accepted.ne
    · obtain rfl := Option.some.inj hnew₂
      exact absurd heq (h.client hold₁).accepted.ne
    · exact h.distinct hold₁ hold₂ heq
  · obtain ⟨hsettled, hothers⟩ := h.closed hmem
    refine ⟨⟨hgrow hsettled.accepted, hsettled.sent, hsettled.lost⟩, fun hc => ?_⟩
    rcases some_of_update hc with ⟨-, hnew⟩ | ⟨-, hold⟩
    · obtain rfl := Option.some.inj hnew
      exact hsettled.accepted.ne'
    · exact hothers hold

/-- Reading keeps the invariant. -/
theorem readReady (h : s.Inv libc clock g) (fd : ℕ) (read : Option (List Bytes × RecvEnd)) :
    (Minired.readReady libc clock s fd read).Inv libc clock g := by
  rcases read with _ | ⟨chunks, last⟩
  · exact h
  unfold Minired.readReady
  dsimp only
  split
  case h_1 => exact h
  case h_2 c hc =>
    obtain ⟨buffers, heffect⟩ := serverRead_effect libc clock s fd (h.client hc).closing chunks last
    exact h.client_event hc heffect

/-- So does writing. -/
theorem writeReady (h : s.Inv libc clock g) (fd : ℕ) (write : Option (List ℕ × SendEnd)) :
    (Minired.writeReady s fd write).Inv libc clock g := by
  rcases write with _ | ⟨sends, last⟩
  · exact h
  unfold Minired.writeReady
  dsimp only
  split
  case h_1 => exact h
  case h_2 c hc =>
    exact h.client_event hc (serverWrite_effect libc clock s fd (h.client hc).closing sends last)

/-- **Every iteration** of `server_run` keeps the invariant. -/
theorem step (h : s.Inv libc clock g) (e : ServerEvent) :
    (serverStep libc clock s e).Inv libc clock g := by
  cases e with
  | accept fd =>
    rw [serverStep]
    split_ifs
    · exact h
    · exact h.accept fd
  | ready fd read write => exact (h.readReady fd read).writeReady fd write

end Server.Inv

variable (libc clock g)

/-- It holds at the start. -/
theorem inv_start : (Server.start g).Inv libc clock g :=
  { globals := rfl
    logged := fun _ hd => absurd hd List.not_mem_nil
    client := fun hc => by cases hc
    distinct := fun hc => by cases hc
    closed := fun hmem => absurd hmem List.not_mem_nil }

variable {libc clock g} in
/-- What holds at the start, and what every iteration keeps, holds after every run. -/
theorem serverRun_keeps {P : Server → Prop} (hstart : P (.start g))
    (hstep : ∀ s e, P s → P (serverStep libc clock s e)) (events : List ServerEvent) :
    P (serverRun libc clock g events) := by
  have hrun : ∀ s, P s → P (events.foldl (serverStep libc clock) s) := by
    induction events with
    | nil => exact fun _ h => h
    | cons e events ih => exact fun s h => ih _ (hstep s e h)
  exact hrun _ hstart

/-- **Every run** keeps the invariant. -/
theorem inv_serverRun (events : List ServerEvent) :
    (serverRun libc clock g events).Inv libc clock g :=
  serverRun_keeps (inv_start libc clock g) (fun _ e h => h.step e) events

/-- **The event loop is correct.** After any run, from any globals: for every connected client,
the bytes sent and those in `write_buf` are the replies to its commands in order, and the bytes
received are those that its commands consumed and those in `read_buf`; no two clients have the
same serial number; and the replies, and the globals, are those of executing the commands of
all clients one after the other in the order of their dispatch. -/
theorem event_loop_correct (events : List ServerEvent) :
    let s := serverRun libc clock g events
    (∀ fd c, s.clients fd = some c →
      c.sent ++ c.writeBuf = s.repliesTo libc clock g c.serial ∧
      c.received = s.consumedBy c.serial ++ c.readBuf) ∧
    (∀ fd fd' c c', s.clients fd = some c → s.clients fd' = some c' →
      c.serial = c'.serial → fd = fd') ∧
    s.globals = (replay libc clock 0 g (s.log.map Dispatch.args)).2 := by
  intro s
  have h : s.Inv libc clock g := inv_serverRun libc clock g events
  exact ⟨fun _ _ hc => ⟨(h.client hc).sent, (h.client hc).received⟩,
    fun _ _ _ _ hc hc' => h.distinct hc hc', h.globals⟩

/-! ### Closing -/

/-- **An orderly close loses replies.** In every run, whenever the server ends a connection,
after `QUIT` or for malformed input, what it has sent is short of the replies to the commands
of the client and the last line: `client_close` deletes `write_buf`, which is not empty. -/
theorem orderly_close_loses (events : List ServerEvent) {c : Client} {why : ConnStatus}
    (hclosed : (c, why) ∈ (serverRun libc clock g events).closed) (hwhy : why.IsOrderly) :
    c.sent ++ c.writeBuf =
        (serverRun libc clock g events).repliesTo libc clock g c.serial ++ why.lastLine ∧
      c.sent ≠ (serverRun libc clock g events).repliesTo libc clock g c.serial ++ why.lastLine := by
  obtain ⟨hsettled, -⟩ := (inv_serverRun libc clock g events).closed hclosed
  have hsent := hsettled.sent hwhy
  refine ⟨hsent, fun hall => hsettled.lost hwhy ?_⟩
  rw [← hall] at hsent
  exact List.append_right_eq_self.mp hsent

/-- A client connects and says `QUIT`. -/
def quitEvents : List ServerEvent :=
  [.accept 5, .ready 5 (some ([ascii "QUIT" ++ crlf], .again)) (some ([100], .again))]

/-- The server closes the connection, and the reply to `QUIT` has not been sent. -/
theorem quit_reply_not_sent :
    let s := serverRun Libc.plain (fun _ => 0) Session.fresh.toGlobals quitEvents
    s.closed.map (fun p => (p.1.sent, p.1.serial, p.2)) = [([], 0, .quit)] ∧
      s.repliesTo Libc.plain (fun _ => 0) Session.fresh.toGlobals 0 = ascii "+OK" ++ crlf := by
  decide

/-- What has been sent is short of what the client is due. -/
theorem quit_reply_lost :
    let s := serverRun Libc.plain (fun _ => 0) Session.fresh.toGlobals quitEvents
    ∃ c, (c, .quit) ∈ s.closed ∧
      c.sent ≠ s.repliesTo Libc.plain (fun _ => 0) Session.fresh.toGlobals c.serial := by
  intro s
  obtain ⟨c, hclosed⟩ : ∃ c, (c, .quit) ∈ s.closed := by
    have hlen : (s.closed.map Prod.snd) = [.quit] := by decide
    obtain ⟨⟨c, why⟩, hmem, rfl⟩ := List.mem_map.mp (hlen ▸ List.mem_singleton_self ConnStatus.quit)
    exact ⟨c, hmem⟩
  refine ⟨c, hclosed, ?_⟩
  have hshort := (orderly_close_loses Libc.plain (fun _ => 0) Session.fresh.toGlobals quitEvents
    hclosed (Or.inl rfl)).2
  rwa [ConnStatus.lastLine_of_ne (by decide), List.append_nil] at hshort

end Minired
