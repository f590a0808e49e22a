import Minired.RespStable
import Minired.Delivery

/-!
# One stream, cut in different ways

`handle_read` parses what has come so far, and what it parses depends on where the network has
cut the stream. Two ways of cutting it should not matter to the client: the same commands are
dispatched, and the connection ends in the same way.

`feed` is what the server would do with some bytes at once. In `drains_feed` the drains of a
connection do what all their bytes at once do, provided that every buffer on the way is
`SettledBuffer`; the induction is over the drains, and `parseLoop_append` is its step. Buffers that
are not settled make the difference visible to the client (`feed_unsettled`).
-/

namespace Minired

open Relational

variable (libc : Libc) (clock : ℕ → Int64)

/-- The loop, as long as it goes on. -/
def serveAll (c : Conn) : Conn := parseLoop libc clock (c.readBuf.length + 1) c

/-- `read_buf` with more bytes behind. -/
def Conn.more (c : Conn) (x : Bytes) : Conn := { c with readBuf := c.readBuf ++ x }

/-- Bytes for a connection: an open one serves them, and no other takes any. -/
def feed (c : Conn) (x : Bytes) : Conn :=
  if c.status = .connected then serveAll libc clock (c.more x) else c

/-- The loop stands in front of what it cannot serve yet. -/
def Idle (c : Conn) : Prop :=
  c.status = .connected → (respParse c.readBuf).status = .incomplete

/-- Connections that differ in nothing that matters: the interest in write events may differ,
and what is left in the buffer of a closed connection. -/
structure SameConn (c d : Conn) : Prop where
  session : c.session = d.session
  dispatched : c.dispatched = d.dispatched
  status : c.status = d.status
  readBuf : c.status = .connected → c.readBuf = d.readBuf

/-- A connection is the same as itself. -/
theorem SameConn.refl (c : Conn) : SameConn c c := ⟨rfl, rfl, rfl, fun _ => rfl⟩

/-- Sameness goes both ways. -/
theorem SameConn.symm {c d : Conn} (h : SameConn c d) : SameConn d c :=
  ⟨h.session.symm, h.dispatched.symm, h.status.symm,
    fun hd => (h.readBuf (h.status.trans hd)).symm⟩

/-- And through a third connection. -/
theorem SameConn.trans {c d e : Conn} (h : SameConn c d) (h' : SameConn d e) : SameConn c e :=
  ⟨h.session.trans h'.session, h.dispatched.trans h'.dispatched, h.status.trans h'.status,
    fun hc => (h.readBuf hc).trans (h'.readBuf (h.status ▸ hc))⟩

/-! ### The loop -/

/-- What the parser takes off the buffer is in it. -/
theorem consumed_le_length {b : Bytes} {args : List Bytes} {consumed : ℕ}
    (h : respParse b = ⟨.ok, args, consumed⟩) : consumed ≤ b.length := by
  by_cases hstar : b.head? = some 42
  · -- an array: what is left is counted from the end
    obtain ⟨-, -, rest, -, rfl⟩ := respParse_array_ok hstar h
    exact Nat.sub_le _ _
  · cases b with
    | nil => cases h
    | cons c b =>
      rw [respParse, if_pos fun hc => hstar (congrArg some hc)] at h
      dsimp only at h
      split_ifs at h with hline hargs
      · cases h
      · cases h
      · -- an inline command takes its line end
        obtain ⟨-, -, rfl⟩ := RespResult.mk.inj h
        exact (findCrlf_append (not_lt.mp hline) []).2

/-- A loop that stops in an open connection has nothing left to serve. -/
theorem idle_parseLoop {fuel : ℕ} {c : Conn} (h : c.readBuf.length < fuel) :
    Idle (parseLoop libc clock fuel c) := by
  induction fuel generalizing c with
  | zero => exact absurd h (Nat.not_lt_zero _)
  | succ fuel ih =>
    cases loopCase libc clock c with
    | waits hparse =>
      rw [parseLoop_incomplete libc clock hparse]
      -- the only way to stop and stay open
      exact fun _ => hparse
    | malformed hparse =>
      rw [parseLoop_error libc clock hparse]
      exact fun hopen => by cases hopen
    | crashes hparse hexec =>
      rw [parseLoop_crash libc clock hparse hexec]
      exact fun hopen => by cases hopen
    | quits hparse hexec hquit =>
      rw [parseLoop_quit libc clock hparse hexec hquit]
      exact fun hopen => by cases hopen
    | @continues s hparse hexec hopen =>
      rw [parseLoop_next libc clock hparse hexec hopen]
      exact ih ((length_next hparse s).trans_le (Nat.le_of_lt_succ h))

/-- Every buffer that the loop gives to the parser is settled. (`QUIT` ends the loop in front of
a buffer that it does not parse.) -/
def ParsesSettled (c : Conn) : Prop :=
  ∀ i, (parseLoop libc clock i c).status ≠ .quit →
    SettledBuffer (parseLoop libc clock i c).readBuf

/-- It is enough to look at the iterations that there are. -/
theorem parsesSettled_iff {c : Conn} :
    ParsesSettled libc clock c ↔ ∀ i < c.readBuf.length + 2,
      (parseLoop libc clock i c).status ≠ .quit →
        SettledBuffer (parseLoop libc clock i c).readBuf := by
  refine ⟨fun h i _ => h i, fun h i => ?_⟩
  rcases lt_or_ge i (c.readBuf.length + 2) with hlt | hge
  · exact h i hlt
  · -- further iterations find what the last one has left
    rw [parseLoop_fuel libc clock (show c.readBuf.length < i by omega) (Nat.lt_succ_self _)]
    exact h (c.readBuf.length + 1) (Nat.lt_succ_self _)

/-- Whether the loop only parses settled buffers can be computed. -/
instance ParsesSettled.decidable (c : Conn) : Decidable (ParsesSettled libc clock c) :=
  decidable_of_iff _ (parsesSettled_iff libc clock).symm

/-- Behind a command the loop goes on with settled buffers. -/
theorem ParsesSettled.next {c d : Conn} (h : ParsesSettled libc clock c)
    (hnext : ∀ i, parseLoop libc clock (i + 1) c = parseLoop libc clock i d) :
    ParsesSettled libc clock d := by
  intro i
  rw [← hnext]
  exact h (i + 1)

/-- The buffer in front of a settled loop is stable. -/
theorem ParsesSettled.stable {c : Conn} (h : ParsesSettled libc clock c)
    (hopen : c.status = .connected) : Stable c.readBuf :=
  (h 0 (by rw [parseLoop, hopen]; decide)).stable

/-- The first command is the same one when more bytes have come. -/
theorem Stable.parse_more {c : Conn} (h : Stable c.readBuf)
    (hparse : (respParse c.readBuf).status = .ok) (x : Bytes) :
    respParse (c.more x).readBuf = respParse c.readBuf := by
  have hres : respParse c.readBuf =
      ⟨.ok, (respParse c.readBuf).args, (respParse c.readBuf).consumed⟩ := by rw [← hparse]
  exact ((h x).1 _ _ hres).trans hres.symm

/-- Then the bytes behind it are the same, and the further ones. -/
theorem more_next {c : Conn} {x : Bytes} (hparse : (respParse c.readBuf).status = .ok)
    (hsame : respParse (c.more x).readBuf = respParse c.readBuf) (s : Session) :
    (c.more x).next s = (c.next s).more x := by
  have hres : respParse c.readBuf =
      ⟨.ok, (respParse c.readBuf).args, (respParse c.readBuf).consumed⟩ := by rw [← hparse]
  have hdrop : (c.readBuf ++ x).drop (respParse c.readBuf).consumed =
      c.readBuf.drop (respParse c.readBuf).consumed ++ x :=
    List.drop_append_of_le_length (consumed_le_length hres)
  rw [Conn.next, hsame, Conn.more, Conn.more, Conn.next]
  dsimp only
  rw [hdrop]

/-- **The step.** What the loop does, and then more bytes, is what it does when they have come
before. -/
theorem parseLoop_append {fuel : ℕ} {c : Conn} (hfuel : c.readBuf.length < fuel)
    (hopen : c.status = .connected) (hsettled : ParsesSettled libc clock c) (x : Bytes) :
    SameConn (feed libc clock (parseLoop libc clock fuel c) x)
      (serveAll libc clock (c.more x)) := by
  induction fuel generalizing c with
  | zero => exact absurd hfuel (Nat.not_lt_zero _)
  | succ fuel ih =>
    -- what the parser says now it says with more bytes, too
    have hstable := hsettled.stable libc clock hopen
    -- a connection that has ended takes no bytes, before or after
    have hended : ∀ d : Conn, d.status ≠ .connected → feed libc clock d x = d :=
      fun d hd => if_neg hd
    cases loopCase libc clock c with
    | waits hparse =>
      -- the loop has stopped, and goes on when the bytes have come
      rw [parseLoop_incomplete libc clock hparse, feed, if_pos hopen]
      exact SameConn.refl _
    | malformed hparse =>
      rw [parseLoop_error libc clock hparse, serveAll,
        parseLoop_error libc clock (c := c.more x) ((hstable x).2 hparse), hended]
      · exact ⟨rfl, rfl, rfl, fun h => by cases h⟩
      · exact fun h => by cases h
    | crashes hparse hexec =>
      have hsame := hstable.parse_more hparse x
      rw [parseLoop_crash libc clock hparse hexec, serveAll,
        parseLoop_crash libc clock (c := c.more x) (by rwa [hsame]) (by rw [hsame]; exact hexec),
        hsame, hended]
      · exact ⟨rfl, rfl, rfl, fun h => by cases h⟩
      · exact fun h => by cases h
    | @quits s hparse hexec hquit =>
      have hsame := hstable.parse_more hparse x
      rw [parseLoop_quit libc clock hparse hexec hquit, serveAll,
        parseLoop_quit libc clock (c := c.more x) (by rwa [hsame]) (by rw [hsame]; exact hexec)
          hquit, more_next hparse hsame, hended]
      · exact ⟨rfl, rfl, rfl, fun h => by cases h⟩
      · exact fun h => by cases h
    | @continues s hparse hexec hgoes =>
      -- the loop goes on with the same command behind it, in front of the same bytes
      have hsame := hstable.parse_more hparse x
      have hnext := parseLoop_next libc clock hparse hexec hgoes
      have hlt := length_next hparse s
      have hlt' := length_next (c := c.more x) (by rwa [hsame]) s
      rw [hnext, serveAll, parseLoop_next libc clock (c := c.more x) (by rwa [hsame])
        (by rw [hsame]; exact hexec) hgoes, more_next hparse hsame]
      rw [more_next hparse hsame] at hlt'
      refine (ih (c := c.next s) (by omega) hopen (hsettled.next libc clock hnext)).trans ?_
      rw [serveAll, parseLoop_fuel libc clock (Nat.lt_succ_self _) hlt']
      exact SameConn.refl _

/-! ### Drains -/

/-- The interest in write events is nothing to the loop. -/
theorem parseLoop_wantWrite (fuel : ℕ) (c : Conn) (want : Bool) :
    parseLoop libc clock fuel { c with wantWrite := want } =
      { parseLoop libc clock fuel c with wantWrite := want } := by
  induction fuel generalizing c with
  | zero => rfl
  | succ fuel ih =>
    -- the interest is not looked at, so the cases are those without it
    cases loopCase libc clock c with
    | waits hparse =>
      rw [parseLoop_incomplete libc clock hparse,
        parseLoop_incomplete libc clock (c := { c with wantWrite := want }) hparse]
    | malformed hparse =>
      rw [parseLoop_error libc clock hparse,
        parseLoop_error libc clock (c := { c with wantWrite := want }) hparse]
    | crashes hparse hexec =>
      rw [parseLoop_crash libc clock hparse hexec,
        parseLoop_crash libc clock (c := { c with wantWrite := want }) hparse hexec]
    | quits hparse hexec hquit =>
      rw [parseLoop_quit libc clock hparse hexec hquit,
        parseLoop_quit libc clock (c := { c with wantWrite := want }) hparse hexec hquit]
      rfl
    | @continues s hparse hexec hopen =>
      rw [parseLoop_next libc clock hparse hexec hopen,
        parseLoop_next libc clock (c := { c with wantWrite := want }) hparse hexec hopen]
      exact ih (c.next s)

/-- The interest in writing does not tell connections apart. -/
theorem sameConn_wantWrite (c : Conn) (want : Bool) : SameConn { c with wantWrite := want } c :=
  ⟨rfl, rfl, rfl, fun _ => rfl⟩

/-- Connections that differ in nothing that matters do the same with more bytes. -/
theorem SameConn.feed {c d : Conn} (h : SameConn c d) (x : Bytes) :
    SameConn (feed libc clock c x) (feed libc clock d x) := by
  by_cases hopen : c.status = .connected
  · -- an open connection: `d` is `c` but for the interest in write events
    have hd : d = { c with wantWrite := d.wantWrite } := by
      obtain ⟨hsession, hdispatched, hstatus, hread⟩ := h
      have hread := hread hopen
      rcases c with ⟨_, _, _, _, _⟩
      rcases d with ⟨_, _, _, _, _⟩
      cases hsession
      cases hdispatched
      cases hstatus
      cases hread
      rfl
    rw [hd, Minired.feed, Minired.feed, if_pos hopen, if_pos hopen]
    -- the loop hands the interest through
    have hwant : serveAll libc clock (Conn.more { c with wantWrite := d.wantWrite } x) =
        { serveAll libc clock (c.more x) with wantWrite := d.wantWrite } :=
      parseLoop_wantWrite libc clock _ (c.more x) d.wantWrite
    rw [hwant]
    exact (sameConn_wantWrite _ _).symm
  · rw [Minired.feed, Minired.feed, if_neg hopen, if_neg fun hd => hopen (h.status.trans hd)]
    exact h

/-- A drain is all its chunks at once. -/
theorem drain_feed (c : Conn) (chunks : List Bytes) :
    SameConn (drain libc clock c chunks) (feed libc clock c chunks.flatten) := by
  rw [drain, feed]
  split_ifs with hopen
  · -- what is set behind the loop is the interest in write events
    rw [handleRead, foldl_chunks]
    dsimp only
    split_ifs
    · exact sameConn_wantWrite _ _
    · exact SameConn.refl _
  · exact SameConn.refl _

/-- Bytes that come one by one in a single drain are fed at once. -/
theorem drain_bytes (c : Conn) (y : Bytes) :
    SameConn (drain libc clock c (y.map fun b => [b])) (feed libc clock c y) := by
  have hsame := drain_feed libc clock c (y.map fun b => [b])
  have hflat := flatten_bytes y
  rw [List.flatten_singleton] at hflat
  rwa [hflat] at hsame

/-- A connection that has ended takes no more drains. -/
theorem foldl_drain_ended {c : Conn} (h : c.status ≠ .connected) (drains : List (List Bytes)) :
    drains.foldl (drain libc clock) c = c := by
  induction drains with
  | nil => rfl
  | cons chunks drains ih => rw [List.foldl_cons, drain, if_neg h, ih]

/-- Every buffer that the parser gets in one of the drains is settled. -/
def DrainsSettled : Conn → List (List Bytes) → Prop
  | _, [] => True
  | c, chunks :: drains =>
    (c.status = .connected → ParsesSettled libc clock (c.more chunks.flatten)) ∧
      DrainsSettled (drain libc clock c chunks) drains

/-- Whether all drains are settled can be computed. -/
instance DrainsSettled.decidable : ∀ c drains, Decidable (DrainsSettled libc clock c drains)
  | _, [] => inferInstanceAs (Decidable True)
  | _, _ :: _ => @instDecidableAnd _ _ _ (DrainsSettled.decidable _ _)

/-- A connection is idle again behind what it was fed. -/
theorem idle_feed {c : Conn} (hc : Idle c) (x : Bytes) : Idle (feed libc clock c x) := by
  rw [feed]
  split_ifs
  · exact idle_parseLoop libc clock (Nat.lt_succ_self _)
  · exact hc

/-- What is the same as an idle connection is idle. -/
theorem SameConn.idle {c d : Conn} (h : SameConn c d) (hd : Idle d) : Idle c := by
  intro hopen
  rw [h.readBuf hopen]
  exact hd (h.status ▸ hopen)

/-- **All drains** are their bytes at once, when the buffers on the way are settled. -/
theorem drains_feed {c : Conn} (hidle : Idle c) (drains : List (List Bytes))
    (hsettled : DrainsSettled libc clock c drains) :
    SameConn (drains.foldl (drain libc clock) c) (feed libc clock c drains.flatten.flatten) := by
  induction drains generalizing c with
  | nil =>
    have hmore : c.more [] = c := by rw [Conn.more, List.append_nil]
    rw [List.foldl_nil, List.flatten_nil, List.flatten_nil, feed]
    split_ifs with hopen
    · -- no bytes, and nothing was left to serve
      rw [hmore, serveAll, parseLoop_incomplete libc clock (hidle hopen)]
      exact SameConn.refl _
    · exact SameConn.refl _
  | cons chunks drains ih =>
    obtain ⟨hfirst, hsettled⟩ := hsettled
    have hsame := drain_feed libc clock c chunks
    rw [List.foldl_cons, List.flatten_cons, List.flatten_append]
    refine (ih (hsame.idle (idle_feed libc clock hidle _)) hsettled).trans ?_
    -- the first drain and the bytes of the later ones, and then all of them at once
    refine (hsame.feed libc clock _).trans ?_
    by_cases hopen : c.status = .connected
    · -- the first drain has parsed settled buffers
      have happend := parseLoop_append libc clock (c := c.more chunks.flatten)
        (Nat.lt_succ_self _) hopen (hfirst hopen) drains.flatten.flatten
      have hmore : (c.more chunks.flatten).more drains.flatten.flatten =
          c.more (chunks.flatten ++ drains.flatten.flatten) := by
        rw [Conn.more, Conn.more, Conn.more, List.append_assoc]
      rw [hmore] at happend
      rw [feed.eq_def libc clock c chunks.flatten, if_pos hopen,
        feed.eq_def libc clock c (chunks.flatten ++ drains.flatten.flatten), if_pos hopen]
      exact happend
    · rw [feed.eq_def libc clock c chunks.flatten, if_neg hopen,
        feed.eq_def libc clock c (chunks.flatten ++ drains.flatten.flatten), if_neg hopen, feed,
        if_neg hopen]
      exact SameConn.refl _

/-! ### What the client sees -/

/-- The same commands have been dispatched, and both connections have ended in a protocol error,
or neither. -/
structure SeenAlike (c d : Conn) : Prop where
  dispatched : c.dispatched = d.dispatched
  protocolError : c.status = .protocolError ↔ d.status = .protocolError

/-- Connections that are the same are seen alike. -/
theorem SameConn.outcome {c d : Conn} (h : SameConn c d) : SeenAlike c d :=
  ⟨h.dispatched, by rw [h.status]⟩

/-- Seeing alike goes both ways. -/
theorem SeenAlike.symm {c d : Conn} (h : SeenAlike c d) : SeenAlike d c :=
  ⟨h.dispatched.symm, h.protocolError.symm⟩

/-- And through a third connection. -/
theorem SeenAlike.trans {c d e : Conn} (h : SeenAlike c d) (h' : SeenAlike d e) :
    SeenAlike c e :=
  ⟨h.dispatched.trans h'.dispatched, h.protocolError.trans h'.protocolError⟩

/-- What has been dispatched stays so. -/
theorem prefix_parseLoop (fuel : ℕ) (c : Conn) :
    c.dispatched <+: (parseLoop libc clock fuel c).dispatched := by
  induction fuel generalizing c with
  | zero => exact List.prefix_refl _
  | succ fuel ih =>
    -- every command is appended
    have hgrows : ∀ args, c.dispatched <+: c.dispatched ++ [args] := fun _ =>
      List.prefix_append _ _
    cases loopCase libc clock c with
    | waits hparse => rw [parseLoop_incomplete libc clock hparse]
    | malformed hparse => rw [parseLoop_error libc clock hparse]
    | crashes hparse hexec =>
      rw [parseLoop_crash libc clock hparse hexec]
      exact hgrows _
    | quits hparse hexec hquit =>
      rw [parseLoop_quit libc clock hparse hexec hquit]
      exact hgrows _
    | @continues s hparse hexec hopen =>
      rw [parseLoop_next libc clock hparse hexec hopen]
      exact (hgrows _).trans (ih (c.next s))

/-- Feeding only adds to what was dispatched. -/
theorem prefix_feed (c : Conn) (x : Bytes) :
    c.dispatched <+: (feed libc clock c x).dispatched := by
  rw [feed]
  split_ifs
  · exact prefix_parseLoop libc clock _ (c.more x)
  · exact List.prefix_refl _

section First

variable (s : Session) {b : Bytes}

/-- The first bytes of an accepted connection go straight to the loop. -/
theorem feed_accepted (b : Bytes) :
    feed libc clock (.accepted s) b = parseLoop libc clock (b.length + 1)
      ((Conn.accepted s).more b) := rfl

/-- The first command of a new connection is dispatched, if it returns or not. -/
theorem first_dispatched (hparse : (respParse b).status = .ok) :
    [(respParse b).args] <+: (feed libc clock (.accepted s) b).dispatched := by
  have hgrows : [(respParse b).args] <+: [(respParse b).args] := List.prefix_refl _
  rw [feed_accepted]
  cases loopCase libc clock ((Conn.accepted s).more b) with
  | waits h => exact absurd (hparse.symm.trans h) (by decide)
  | malformed h => exact absurd (hparse.symm.trans h) (by decide)
  | crashes h hexec =>
    rw [parseLoop_crash libc clock h hexec]
    exact hgrows
  | quits h hexec hquit =>
    rw [parseLoop_quit libc clock h hexec hquit]
    exact hgrows
  | @continues s' h hexec hopen =>
    rw [parseLoop_next libc clock h hexec hopen]
    exact prefix_parseLoop libc clock _ (((Conn.accepted s).more b).next s')

/-- A buffer that is not complete is kept. -/
theorem feed_incomplete (h : (respParse b).status = .incomplete) :
    feed libc clock (.accepted s) b = (Conn.accepted s).more b := by
  have hwaits : (respParse ((Conn.accepted s).more b).readBuf).status = .incomplete := h
  rw [feed_accepted, parseLoop_incomplete libc clock hwaits]

/-- A buffer that is in error ends the connection, with nothing dispatched. -/
theorem feed_error (h : (respParse b).status = .error) :
    (feed libc clock (.accepted s) b).status = .protocolError ∧
      (feed libc clock (.accepted s) b).dispatched = [] := by
  have herror : (respParse ((Conn.accepted s).more b).readBuf).status = .error := h
  rw [feed_accepted, parseLoop_error libc clock herror]
  exact ⟨rfl, rfl⟩

/-- **An unsettled buffer** at the beginning of a stream makes a difference for some bytes
behind it. -/
theorem feed_unsettled (hfits : Fits b) (h : ¬SettledBuffer b) :
    ∃ x, ¬SeenAlike (feed libc clock (feed libc clock (.accepted s) b) x)
      (feed libc clock (.accepted s) (b ++ x)) := by
  obtain ⟨x, ⟨args, consumed, hok, hother⟩ | ⟨herror, hwaits⟩⟩ := not_stable_of_not_settled hfits h
  · -- the first command is `args`, or it is not
    refine ⟨x, fun hsame => ?_⟩
    have hfirst := first_dispatched libc clock s (b := b) (by rw [hok])
    rw [hok] at hfirst
    have hfirst := hfirst.trans (prefix_feed libc clock _ x)
    rw [hsame.dispatched] at hfirst
    -- the stream at once begins with the same command, or with none
    rcases hres : respParse (b ++ x) with ⟨_ | _ | _, args', consumed'⟩
    · have hfirst' := first_dispatched libc clock s (b := b ++ x) (by rw [hres])
      rw [hres] at hfirst'
      have heq := (List.prefix_of_prefix_length_le hfirst hfirst' le_rfl).eq_of_length rfl
      obtain rfl : args = args' := List.singleton_inj.mp heq
      exact hother consumed' hres
    · rw [feed_incomplete libc clock s (by rw [hres])] at hfirst
      exact absurd hfirst (by simp [Conn.more, Conn.accepted])
    · rw [(feed_error libc clock s (by rw [hres])).2] at hfirst
      exact absurd hfirst (by simp)
  · refine ⟨x, fun hsame => ?_⟩
    -- the cut stream ends in a protocol error, the whole one waits
    have hstatus := (feed_error libc clock s herror).1
    have hended : feed libc clock (feed libc clock (.accepted s) b) x =
        feed libc clock (.accepted s) b := by
      rw [feed, if_neg (by rw [hstatus]; decide)]
    have hopen := hsame.protocolError.mp (by rw [hended]; exact hstatus)
    rw [feed_incomplete libc clock s hwaits] at hopen
    cases hopen

end First

/-- **Fragmentation.** What the parser says of a buffer holds of all that begin with it, if and
only if the buffer is settled. However a stream is cut, the server dispatches the same commands
and comes to the same protocol error, as long as the buffers that it parses are settled. A
buffer that is not settled, at the beginning of a stream, makes a difference: there are bytes
behind it and two ways of cutting such that the client sees another outcome. -/
theorem fragmentation_iff :
    (∀ b, (SettledBuffer b → Stable b) ∧ (Fits b → Stable b → SettledBuffer b)) ∧
      ∀ s : Session,
        (∀ drains drains', drains.flatten.flatten = drains'.flatten.flatten →
          DrainsSettled libc clock (.accepted s) drains →
          DrainsSettled libc clock (.accepted s) drains' →
          SeenAlike (drains.foldl (drain libc clock) (.accepted s))
            (drains'.foldl (drain libc clock) (.accepted s))) ∧
        ∀ b, Fits b → ¬SettledBuffer b → ∃ drains drains', Received drains ∧ Received drains' ∧
          b <+: drains.flatten.flatten ∧ drains.flatten.flatten = drains'.flatten.flatten ∧
          ¬SeenAlike (drains.foldl (drain libc clock) (.accepted s))
            (drains'.foldl (drain libc clock) (.accepted s)) := by
  refine ⟨fun b => ⟨SettledBuffer.stable, settled_of_stable⟩, fun s => ⟨?_, ?_⟩⟩
  · intro drains drains' hbytes hsettled hsettled'
    -- each of them is all its bytes at once
    have hidle : Idle (Conn.accepted s) := fun _ => rfl
    have hsame := (drains_feed libc clock hidle drains hsettled).outcome
    rw [hbytes] at hsame
    exact hsame.trans (drains_feed libc clock hidle drains' hsettled').outcome.symm
  · intro b hfits hunsettled
    obtain ⟨x, hx⟩ := feed_unsettled libc clock s hfits hunsettled
    -- `b` and `x` in two drains, or in one, and every chunk a byte
    have hflat : ([b.map fun b => [b]] ++ [x.map fun b => [b]]).flatten.flatten = b ++ x := by
      rw [List.flatten_append, List.flatten_append, flatten_bytes, flatten_bytes]
    refine ⟨[b.map fun b => [b]] ++ [x.map fun b => [b]], [(b ++ x).map fun b => [b]],
      List.forall_mem_append.mpr ⟨received_bytes b, received_bytes x⟩, received_bytes _,
      hflat ▸ List.prefix_append _ _, hflat.trans (flatten_bytes _).symm, fun hsame => hx ?_⟩
    have hboth := ((drain_bytes libc clock (.accepted s) b).feed libc clock x).symm.trans
      (drain_bytes libc clock (drain libc clock (.accepted s) (b.map fun b => [b])) x).symm
    exact hboth.outcome.trans (hsame.trans (drain_bytes libc clock (.accepted s) (b ++ x)).outcome)

/-- The streams of clients that write their commands with `resp_array` are settled wherever the
network cuts them. -/
theorem settled_of_sendable {cmd : List Bytes} (hcmd : Sendable cmd) {p rest : Bytes}
    (hp : p <+: respArray cmd ++ rest) (hfits : Fits p) : SettledBuffer p := by
  refine settled_of_stable hfits ?_
  rcases Framing.prefix_append_cases hp with ⟨q, rfl, -⟩ | ⟨hpart, hne⟩
  · -- the command is found with whatever is behind it
    have hfound := fun rest => RespResult.outcome_message.mp (resp_frames.whole cmd hcmd rest)
    intro x
    rw [List.append_assoc, hfound, hfound]
    exact ⟨fun _ _ h => h, fun h => h⟩
  · -- a part of the command waits, and is stable therefore
    exact stable_of_incomplete
      (RespResult.outcome_incomplete.mp (resp_frames.waits cmd hcmd p hpart hne))

/-- A header without a number, behind which the number may still come: the parser reads the
number 0 over the line end, and another one when a digit follows. In the header of an array that
is an error that goes away. In the header of the last argument it is a command that goes away:
the stream cut behind it is a command without a name and `5ab`, and at once it is one command,
whose name contains the line end. -/
theorem fragment_decides :
    let clock := fun _ => 1000
    let c := Conn.accepted Session.fresh
    let b := ascii "*1" ++ crlf ++ ascii "$" ++ crlf ++ crlf
    let x := ascii "5ab" ++ crlf
    ¬Stable (ascii "*" ++ crlf) ∧ ¬Stable b ∧
      ([[b], [x]].foldl (drain Libc.plain clock) c).dispatched = [[[]], [ascii "5ab"]] ∧
      ([[b ++ x]].foldl (drain Libc.plain clock) c).dispatched = [[crlf ++ ascii "5ab"]] ∧
      ¬SeenAlike ([[b], [x]].foldl (drain Libc.plain clock) c)
        ([[b ++ x]].foldl (drain Libc.plain clock) c) := by
  intro clock c b x
  have hcut : ([[b], [x]].foldl (drain Libc.plain clock) c).dispatched =
      [[[]], [ascii "5ab"]] := by decide
  have hwhole : ([[b ++ x]].foldl (drain Libc.plain clock) c).dispatched =
      [[crlf ++ ascii "5ab"]] := by decide
  -- the first two by what a digit does to the parser, the last by the two runs
  refine ⟨fun h => ?_, fun h => ?_, hcut, hwhole, fun h => ?_⟩
  · have herror := (h (ascii "1")).2 (by decide)
    exact absurd herror (by decide)
  · have hok := (h x).1 [[]] 9 rfl
    exact absurd (congrArg RespResult.args hok) (by decide)
  · rw [SeenAlike.dispatched h, hwhole] at hcut
    exact absurd hcut (by decide)

end Minired
