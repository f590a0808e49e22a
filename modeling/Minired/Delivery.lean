import Minired.Server

/-!
# Delivery of commands

A client writes commands with `resp_array`, one after the other, and the network cuts the
stream into chunks and drains. After every drain the server has dispatched the commands that
lie wholly in what has arrived, and `read_buf` holds the rest.

`drain_stream` is one drain, from any state of the connection; `drains_stream` is the
induction over the drains. What `delivered` says of the bytes that have arrived carries it.

A handler that does not return ends the server, and nothing is dispatched after it. That no
command of the sequence does this is the exact condition, `commands_delivered_iff`.
-/

namespace Minired

open Relational Framing

variable (libc : Libc) (clock : ℕ → Int64)

/-- The chunks as `recv` returns them: not empty, and at most as long as its buffer. -/
def Received (drains : List (List Bytes)) : Prop :=
  ∀ chunks ∈ drains, ∀ chunk ∈ chunks, chunk ≠ [] ∧ chunk.length ≤ 4096

/-- Chunks that are appended one by one. -/
theorem foldl_chunks (chunks : List Bytes) (buf : Bytes) :
    chunks.foldl (· ++ ·) buf = buf ++ chunks.flatten := by
  induction chunks generalizing buf with
  | nil => exact (List.append_nil buf).symm
  | cons chunk chunks ih => rw [List.foldl_cons, ih, List.flatten_cons, List.append_assoc]

/-- A command takes a byte of the stream at least. -/
theorem length_respArray_pos (cmd : List Bytes) : 1 ≤ (respArray cmd).length := by
  rw [respArray_eq, List.length_append]
  exact Nat.le_add_right_of_le (Nat.le_add_left _ _)

/-- What is left of a sequence of commands after those delivered. -/
theorem noQuit_of_append {cmds done more : List (List Bytes)} (h : cmds = done ++ more)
    (hquit : NoQuit cmds) : NoQuit done ∧ NoQuit more :=
  ⟨fun cmd hc => hquit cmd (h ▸ List.mem_append_left more hc),
    fun cmd hc => hquit cmd (h ▸ List.mem_append_right done hc)⟩

/-- **One drain.** From a connection in front of the commands `cmds`, of which a part may be in
`read_buf`, the drain dispatches those that have arrived and keeps the rest, unless one of them
does not return. -/
theorem drain_stream {cmds : List (List Bytes)} (hsend : ∀ cmd ∈ cmds, Sendable cmd)
    (hquit : NoQuit cmds) {c : Conn} (hopen : c.status = .connected)
    (hsound : c.session.Sound false) {chunks : List Bytes}
    (hbytes : c.readBuf ++ chunks.flatten <+: stream respArray cmds) :
    let r := delivered respArray cmds (c.readBuf ++ chunks.flatten)
    match dispatchAll libc clock c.dispatched.length c.session r.1 with
    | (.ok _, s) => (drain libc clock c chunks).status = .connected ∧
        (drain libc clock c chunks).session = s ∧
        (drain libc clock c chunks).dispatched = c.dispatched ++ r.1 ∧
        (drain libc clock c chunks).readBuf = r.2
    | (.error _, _) => (drain libc clock c chunks).status = .crashed := by
  intro r
  -- what has arrived are the commands of `r.1`, and behind them the parser waits
  obtain ⟨more, hcmds, hsplit, hpending⟩ := delivered_spec hbytes
  have hwaits := resp_frames.waits_pending
    (fun cmd hc => hsend cmd (hcmds ▸ List.mem_append_right _ hc)) hpending
  -- every command takes a byte, so the loop has turns enough
  have hfuel : r.1.length ≤ (c.readBuf ++ chunks.flatten).length + 1 := by
    calc r.1.length ≤ (stream respArray r.1).length := length_le_stream length_respArray_pos r.1
      _ ≤ (stream respArray r.1 ++ r.2).length := by
        rw [List.length_append]
        exact Nat.le_add_right _ _
      _ = (c.readBuf ++ chunks.flatten).length := (congrArg List.length hsplit).symm
      _ ≤ _ := Nat.le_succ _
  have hloop := parseLoop_stream libc clock
    (fun cmd hc => hsend cmd (hcmds ▸ List.mem_append_left _ hc))
    (noQuit_of_append hcmds hquit).1 hwaits hfuel
    (c := { c with readBuf := c.readBuf ++ chunks.flatten }) hsplit hsound
  -- the write interest that is set behind the loop changes none of the four
  have hdrain : drain libc clock c chunks =
      let c' := parseLoop libc clock ((c.readBuf ++ chunks.flatten).length + 1)
        { c with readBuf := c.readBuf ++ chunks.flatten }
      if c'.status = .connected ∧ c'.session.writeBuf ≠ [] then { c' with wantWrite := true }
      else c' := by
    rw [drain, if_pos hopen, handleRead, foldl_chunks]
  rw [hdrain]
  dsimp only at hloop ⊢
  revert hloop
  rcases dispatchAll libc clock c.dispatched.length c.session r.1 with ⟨_ | _, s⟩
  · intro hloop
    dsimp only at hloop ⊢
    rw [hloop, if_neg fun h => absurd h.1 (by decide)]
    exact hloop
  · intro hloop
    dsimp only at hloop ⊢
    rw [hloop]
    split_ifs
    · exact ⟨hopen, rfl, rfl, rfl⟩
    · exact ⟨hopen, rfl, rfl, rfl⟩

/-- **A fault ends the server**, when all the bytes come in one drain. -/
theorem drain_crashed {cmds : List (List Bytes)} (hsend : ∀ cmd ∈ cmds, Sendable cmd)
    (hquit : NoQuit cmds) {c : Conn} (hopen : c.status = .connected)
    (hsound : c.session.Sound false) {chunks : List Bytes}
    (hbytes : c.readBuf ++ chunks.flatten = stream respArray cmds)
    (hfault : (dispatchAll libc clock c.dispatched.length c.session cmds).1 ≠ .ok ()) :
    (drain libc clock c chunks).status = .crashed := by
  have harrived : c.readBuf ++ chunks.flatten <+: stream respArray cmds := by rw [hbytes]
  have hdrain := drain_stream libc clock hsend hquit hopen hsound harrived
  dsimp only at hdrain
  -- all has arrived, so the loop comes to the command that does not return
  rw [hbytes, delivered_stream] at hdrain
  rcases hrun : dispatchAll libc clock c.dispatched.length c.session cmds with ⟨e | u, s'⟩
  · rw [hrun] at hdrain
    exact hdrain
  · exact absurd (congrArg Prod.fst hrun) hfault

/-- The commands in front of others return when all do. -/
theorem dispatchAll_ok_of_append {n : ℕ} {s : Session} {cmds more : List (List Bytes)}
    (h : (dispatchAll libc clock n s (cmds ++ more)).1 = .ok ()) :
    ∃ s', dispatchAll libc clock n s cmds = (.ok (), s') ∧
      (dispatchAll libc clock (n + cmds.length) s' more).1 = .ok () := by
  rw [dispatchAll_append] at h
  rcases hcmds : dispatchAll libc clock n s cmds with ⟨_ | _, s'⟩
  · rw [hcmds] at h
    -- a fault would have been that of the whole
    exact absurd h (by simp)
  · rw [hcmds] at h
    exact ⟨s', rfl, h⟩

/-- **All drains.** When the commands return, the server keeps up with what has arrived. -/
theorem drains_stream (drains : List (List Bytes)) {cmds : List (List Bytes)}
    (hsend : ∀ cmd ∈ cmds, Sendable cmd) (hquit : NoQuit cmds) {c : Conn}
    (hopen : c.status = .connected) (hsound : c.session.Sound false)
    (hpending : Pending respArray cmds c.readBuf)
    (hbytes : c.readBuf ++ drains.flatten.flatten <+: stream respArray cmds)
    (hok : (dispatchAll libc clock c.dispatched.length c.session cmds).1 = .ok ()) :
    let r := delivered respArray cmds (c.readBuf ++ drains.flatten.flatten)
    let c' := drains.foldl (drain libc clock) c
    c'.status = .connected ∧ c'.dispatched = c.dispatched ++ r.1 ∧ c'.readBuf = r.2 := by
  induction drains generalizing cmds c with
  | nil =>
    intro r c'
    have hr : r = ([], c.readBuf) := by
      show delivered respArray cmds (c.readBuf ++ []) = _
      rw [List.append_nil, delivered_pending hpending]
    rw [hr]
    exact ⟨hopen, (List.append_nil _).symm, rfl⟩
  | cons chunks drains ih =>
    intro r c'
    rw [List.flatten_cons, List.flatten_append, ← List.append_assoc] at hbytes
    have hfirst : c.readBuf ++ chunks.flatten <+: stream respArray cmds :=
      (List.prefix_append _ _).trans hbytes
    obtain ⟨more, hcmds, hsplit, hrest⟩ := delivered_spec hfirst
    -- name what the first drain delivers, and what it leaves
    obtain ⟨first, hfirst_eq⟩ : ∃ first,
      first = delivered respArray cmds (c.readBuf ++ chunks.flatten) := ⟨_, rfl⟩
    have hstep := drain_stream libc clock hsend hquit hopen hsound hfirst
    dsimp only at hstep
    rw [← hfirst_eq] at hcmds hsplit hrest hstep
    subst hcmds
    obtain ⟨hquit₁, hquit₂⟩ := noQuit_of_append rfl hquit
    -- the commands of the first drain return, as all do
    obtain ⟨s', hs', hok'⟩ := dispatchAll_ok_of_append libc clock hok
    have hsound' := sound_dispatchAll libc clock hquit₁
      c.dispatched.length hsound
    rw [hs'] at hstep hsound'
    obtain ⟨hopen', hsession, hdispatched, hread⟩ := hstep
    -- the later drains start in front of the commands that are left
    have hlater : first.2 ++ drains.flatten.flatten <+: stream respArray more := by
      rw [hsplit, List.append_assoc, stream_append] at hbytes
      exact (List.prefix_append_right_inj _).mp hbytes
    have hnext := ih (fun cmd hc => hsend cmd (List.mem_append_right _ hc)) hquit₂ hopen'
      (hsession ▸ hsound') (hread ▸ hrest) (hread ▸ hlater)
      (by rw [hdispatched, hsession, List.length_append]; exact hok')
    have hr : r = (first.1 ++ (delivered respArray more (first.2 ++ drains.flatten.flatten)).1,
        (delivered respArray more (first.2 ++ drains.flatten.flatten)).2) := by
      show delivered respArray (first.1 ++ more) _ = _
      rw [List.flatten_cons, List.flatten_append, ← List.append_assoc, hsplit,
        List.append_assoc, delivered_append]
    dsimp only at hnext
    rw [hdispatched, hread, List.append_assoc] at hnext
    rw [hr]
    exact hnext

/-- A stream can be received byte by byte. -/
theorem received_bytes (bytes : Bytes) : Received [bytes.map fun b => [b]] := by
  intro chunks hchunks chunk hchunk
  obtain rfl := List.mem_singleton.mp hchunks
  obtain ⟨b, -, rfl⟩ := List.mem_map.mp hchunk
  exact ⟨List.cons_ne_nil _ _, by simp⟩

/-- A stream that is cut into single bytes. -/
theorem flatten_bytes (bytes : Bytes) : [bytes.map fun b => [b]].flatten.flatten = bytes := by
  rw [List.flatten_singleton]
  induction bytes with
  | nil => rfl
  | cons b bytes ih => rw [List.map_cons, List.flatten_cons, ih, List.singleton_append]

/-- **Commands are delivered** exactly when none of them ends the server. A client of a
reachable server sends the commands `cmds`, none of them `QUIT`. However the stream is cut into
chunks and drains, and wherever it has got to: the client is connected, what has been
dispatched are the commands that lie wholly in the bytes that have arrived, in order and each
once, and `read_buf` is the rest; so at the end all have been dispatched, and `read_buf` is
empty. This holds if and only if the commands, executed in order, all return. -/
theorem commands_delivered_iff {s : Session} (hs : Reachable libc s.dict)
    (hopen : s.closing = false) {cmds : List (List Bytes)} (hsend : ∀ cmd ∈ cmds, Sendable cmd)
    (hquit : NoQuit cmds) :
    (∀ drains, Received drains → drains.flatten.flatten <+: stream respArray cmds →
      let c := drains.foldl (drain libc clock) (Conn.accepted s)
      let r := delivered respArray cmds drains.flatten.flatten
      c.status = .connected ∧ c.dispatched = r.1 ∧ c.readBuf = r.2 ∧
        (drains.flatten.flatten = stream respArray cmds →
          c.dispatched = cmds ∧ c.readBuf = [])) ↔
      (dispatchAll libc clock 0 s cmds).1 = .ok () := by
  have hsound : (Conn.accepted s).session.Sound false := ⟨hs.wf, hopen⟩
  constructor
  · intro h
    by_contra hfault
    -- deliver everything in one drain
    have hbytes := flatten_bytes (stream respArray cmds)
    obtain ⟨hconnected, -⟩ := h _ (received_bytes (stream respArray cmds))
      (by rw [hbytes])
    rw [List.flatten_singleton] at hbytes
    have hcrashed := drain_crashed libc clock hsend hquit rfl hsound hbytes hfault
    rw [List.foldl_cons, List.foldl_nil, hcrashed] at hconnected
    exact absurd hconnected (by decide)
  · intro hok drains _ hbytes c r
    -- at the start nothing is pending
    have hpending : Pending respArray cmds (Conn.accepted s).readBuf := by
      cases cmds with
      | nil => exact Or.inl ⟨rfl, rfl⟩
      | cons cmd cmds =>
        refine Or.inr ⟨cmd, cmds, rfl, List.nil_prefix, ?_⟩
        rw [respArray_eq]
        exact (List.cons_ne_nil _ _).symm
    obtain ⟨hconnected, hdispatched, hread⟩ := drains_stream libc clock drains
      hsend hquit (c := Conn.accepted s) rfl hsound hpending hbytes hok
    -- behind the whole stream nothing is pending
    refine ⟨hconnected, hdispatched, hread, fun hwhole => ?_⟩
    have hr : r = (cmds, []) := by
      show delivered respArray cmds drains.flatten.flatten = _
      rw [hwhole, delivered_stream]
    exact ⟨hdispatched.trans (by show r.1 = cmds; rw [hr]), hread.trans (by show r.2 = []; rw [hr])⟩

/-- A `SET` with a line end in its value and a `GET`, cut inside the first header: both are
dispatched, and nothing is left. -/
theorem commands_delivered_cut :
    let cmds := [[ascii "SET", ascii "k", crlf], [ascii "GET", ascii "k"]]
    let bytes := stream respArray cmds
    let c := [[bytes.take 2], [bytes.drop 2]].foldl (drain Libc.plain fun _ => 1000)
      (Conn.accepted Session.fresh)
    c.status = .connected ∧ c.dispatched = cmds ∧ c.readBuf = [] := by
  intro cmds bytes c
  have hsend : ∀ cmd ∈ cmds, Sendable cmd := by
    simp only [cmds, List.forall_mem_cons]
    exact ⟨⟨by decide, by decide⟩, ⟨by decide, by decide⟩, by simp⟩
  have hquit : NoQuit cmds := by
    unfold NoQuit
    decide
  have hreceived : Received [[bytes.take 2], [bytes.drop 2]] := by
    unfold Received
    decide
  have hbytes : [[bytes.take 2], [bytes.drop 2]].flatten.flatten = bytes := by decide
  obtain ⟨hconnected, -, -, hwhole⟩ := (commands_delivered_iff Libc.plain
    (fun _ => 1000) reachable_fresh rfl hsend hquit).mpr (by decide) _ hreceived
    (hbytes ▸ List.prefix_refl _)
  exact ⟨hconnected, hwhole hbytes⟩

/-- An `INCRBY` whose last argument is no number, and a `PING`: the exception of `std::stoll`
ends the server, and the `PING`, which has arrived, is not dispatched. -/
theorem command_lost_by_exception :
    let cmds := [[ascii "INCRBY", ascii "k", ascii "abc"], [ascii "PING"]]
    let drains := [[stream respArray cmds]]
    let c := drains.foldl (drain Libc.plain fun _ => 1000) (Conn.accepted Session.fresh)
    Reachable Libc.plain Session.fresh.dict ∧ (∀ cmd ∈ cmds, Sendable cmd) ∧ NoQuit cmds ∧
      Received drains ∧ drains.flatten.flatten = stream respArray cmds ∧
      c.status = .crashed ∧ c.dispatched = cmds.take 1 ∧ c.dispatched ≠ cmds := by
  intro cmds drains c
  have hsend : ∀ cmd ∈ cmds, Sendable cmd := by
    simp only [cmds, List.forall_mem_cons]
    exact ⟨⟨by decide, by decide⟩, ⟨by decide, by decide⟩, by simp⟩
  refine ⟨reachable_fresh, hsend, ?_, ?_, by decide, by decide, by decide, by decide⟩
  · unfold NoQuit
    decide
  · unfold Received
    decide

end Minired
