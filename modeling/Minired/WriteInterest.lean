import Minired.EventLoopInv
import Minired.Fragmentation

/-!
# Interest in write events

The loop asks the kernel for write events on a client when `handle_read` leaves something in its
`write_buf`, and no longer asks for them when `handle_write` has sent all of it. `InterestMatches`
says that nothing goes wrong between these two places: the interest is there if and only if
`write_buf` is not empty. Replies only ever get appended by `handle_read`, so an interest that it
finds is never out of date when it returns (`handleRead_interest`), and a `handle_write` that stops
early leaves the interest with what it could not send (`serverWrite_interest`).
-/

namespace Minired

variable (libc : Libc) (clock : ℕ → Int64)

/-- **Write interest** is registered for the clients that have something to send, and only for
them. -/
def Server.InterestMatches (s : Server) : Prop :=
  ∀ fd c, s.clients fd = some c → (c.wantWrite = true ↔ c.writeBuf ≠ [])

/-! ### The read handler -/

/-- The loop over the commands does not touch the interest. -/
theorem wantWrite_parseLoop (fuel : ℕ) (c : Conn) :
    (parseLoop libc clock fuel c).wantWrite = c.wantWrite := by
  have hsame : parseLoop libc clock fuel c =
      { parseLoop libc clock fuel c with wantWrite := c.wantWrite } :=
    parseLoop_wantWrite libc clock fuel c c.wantWrite
  rw [hsame]

/-- What the loop has in `write_buf` begins with what it found there. -/
theorem prefix_writeBuf_parseLoop (fuel : ℕ) {c : Conn} (hopen : c.status = .connected)
    (hclosing : c.session.closing = false) :
    c.session.writeBuf <+: (parseLoop libc clock fuel c).session.writeBuf := by
  obtain ⟨buffers, h⟩ := parseLoop_served libc clock fuel hopen hclosing
  rw [h.writeBuf]
  exact List.prefix_append _ _

/-- **`handle_read`** leaves a client that it does not close with the right interest. -/
theorem handleRead_interest {c : Conn} (hopen : c.status = .connected)
    (hclosing : c.session.closing = false)
    (hmatch : c.wantWrite = true ↔ c.session.writeBuf ≠ []) (chunks : List Bytes)
    (last : RecvEnd) (hstays : (handleRead libc clock c chunks last).status = .connected) :
    (handleRead libc clock c chunks last).wantWrite = true ↔
      (handleRead libc clock c chunks last).session.writeBuf ≠ [] := by
  cases last with
  | eof => cases hstays
  | failed => cases hstays
  | again =>
    unfold handleRead at hstays ⊢
    dsimp only at hstays ⊢
    split_ifs at hstays ⊢ with hsome
    · exact iff_of_true rfl hsome.2
    · -- nothing waits, so nothing did, and the interest is what it was
      have hempty : (parseLoop libc clock _ _).session.writeBuf = [] :=
        not_not.mp fun hne => hsome ⟨hstays, hne⟩
      have hbefore := prefix_writeBuf_parseLoop libc clock
        ((chunks.foldl (· ++ ·) c.readBuf).length + 1)
        (c := { c with readBuf := chunks.foldl (· ++ ·) c.readBuf }) hopen hclosing
      rw [hempty, List.prefix_nil] at hbefore
      rw [wantWrite_parseLoop, hempty]
      exact hmatch.trans (iff_of_false (not_not.mpr hbefore) (not_not.mpr rfl))

/-- The clients behind an event on one of them. -/
theorem some_of_settle {s : Server} {fd fd' : ℕ} {c c' : Client} {why : ConnStatus}
    (h : (settle s fd c why).clients fd' = some c') :
    fd' = fd ∧ why = .connected ∧ c' = c ∨ fd' ≠ fd ∧ s.clients fd' = some c' := by
  have hclose : ∀ {why}, (clientClose s fd c why).clients fd' = some c' →
      fd' ≠ fd ∧ s.clients fd' = some c' :=
    fun h => (some_of_update h).resolve_left fun h => by cases h.2
  cases why with
  | connected =>
    exact (some_of_update h).imp_left fun h => ⟨h.1, rfl, (Option.some.inj h.2).symm⟩
  | crashed => cases h
  | peerClosed => exact .inr (hclose h)
  | protocolError => exact .inr (hclose h)
  | quit => exact .inr (hclose h)

/-! ### The write handler -/

/-- The loop of `handle_write` takes bytes off the front of `write_buf`, and does not touch the
interest. -/
theorem sendLoop_interest (c : Client) (sends : List ℕ) :
    (sendLoop c sends).writeBuf <:+ c.writeBuf ∧ (sendLoop c sends).wantWrite = c.wantWrite := by
  induction sends generalizing c with
  | nil => exact ⟨List.suffix_refl _, rfl⟩
  | cons n ns ih =>
    rw [sendLoop]
    split_ifs
    · exact ⟨List.suffix_refl _, rfl⟩
    · obtain ⟨hrest, hwant⟩ :=
        ih { c with writeBuf := c.writeBuf.drop n, sent := c.sent ++ c.writeBuf.take n }
      exact ⟨hrest.trans (List.drop_suffix n _), hwant⟩

/-! ### Runs -/

namespace Server.InterestMatches

variable {libc clock} {s : Server} (h : s.InterestMatches)

include h

/-- One descriptor gets a client with the right interest, or none. -/
theorem update {fd : ℕ} {o : Option Client} {s' : Server}
    (hclients : s'.clients = Function.update s.clients fd o)
    (hright : ∀ {c}, o = some c → (c.wantWrite = true ↔ c.writeBuf ≠ [])) :
    s'.InterestMatches := by
  intro fd' c hc
  rw [hclients] at hc
  rcases some_of_update hc with ⟨-, hnew⟩ | ⟨-, hold⟩
  · exact hright hnew
  · exact h fd' c hold

section ClientEvent

variable {fd : ℕ} {c : Client} (hc : s.clients fd = some c)

include hc

/-- A read event. -/
theorem serverRead (hclosing : c.closing = false) (chunks : List Bytes) (last : RecvEnd) :
    (Minired.serverRead libc clock s fd c chunks last).InterestMatches := by
  intro fd' c' hc'
  rcases some_of_settle hc' with ⟨-, hstays, rfl⟩ | ⟨-, hold⟩
  · exact handleRead_interest libc _ (c := s.conn c) rfl hclosing (h fd c hc) chunks last hstays
  · exact h fd' c' hold

/-- A write event. -/
theorem serverWrite (sends : List ℕ) (last : SendEnd) :
    (Minired.serverWrite s fd c sends last).InterestMatches := by
  obtain ⟨hrest, hwant⟩ := sendLoop_interest c sends
  unfold Minired.serverWrite
  dsimp only
  split_ifs with hempty
  · -- all is sent
    refine h.update rfl fun hnew => ?_
    obtain rfl := Option.some.inj hnew
    exact iff_of_false Bool.false_ne_true (not_not.mpr hempty)
  · have hwaits : c.writeBuf ≠ [] := fun hnil => hempty (List.suffix_nil.mp (hnil ▸ hrest))
    cases last with
    | again =>
      -- what is left waits, as it did before
      refine h.update rfl fun hnew => ?_
      obtain rfl := Option.some.inj hnew
      exact iff_of_true (hwant.trans ((h fd c hc).mpr hwaits)) hempty
    | failed => exact h.update rfl fun hnew => nomatch hnew

end ClientEvent

/-- A new client has nothing to send. -/
theorem accept (fd : ℕ) : (handleAccept s fd).InterestMatches := by
  unfold handleAccept
  split_ifs
  · exact h
  · refine h.update rfl fun hnew => ?_
    obtain rfl := Option.some.inj hnew
    exact iff_of_false Bool.false_ne_true (not_not.mpr rfl)

/-- **Every iteration** of `server_run` keeps the interest right. -/
theorem step {g : Globals} (hinv : s.Inv libc clock g) (e : ServerEvent) :
    (serverStep libc clock s e).InterestMatches := by
  cases e with
  | accept fd =>
    rw [serverStep]
    split_ifs
    · exact h
    · exact h.accept fd
  | ready fd read write =>
    -- `handle_write` is called on what `handle_read` has left
    have hread : (readReady libc clock s fd read).InterestMatches := by
      rcases read with _ | ⟨chunks, last⟩
      · exact h
      unfold readReady
      dsimp only
      split
      case h_1 => exact h
      case h_2 c hc => exact h.serverRead hc (hinv.client hc).closing chunks last
    rcases write with _ | ⟨sends, last⟩
    · exact hread
    unfold serverStep writeReady
    dsimp only
    split
    case h_1 => exact hread
    case h_2 c hc => exact hread.serverWrite hc sends last

end Server.InterestMatches

/-- **Every run** keeps the interest right. -/
theorem interest_serverRun (g : Globals) (events : List ServerEvent) :
    (serverRun libc clock g events).InterestMatches := by
  have hstart : (Server.start g).InterestMatches := fun fd c hc => by cases hc
  have hboth := serverRun_keeps (P := fun s => s.Inv libc clock g ∧ s.InterestMatches)
    ⟨inv_start libc clock g, hstart⟩ (fun _ e ⟨hinv, h⟩ => ⟨hinv.step e, h.step hinv e⟩) events
  exact hboth.2

end Minired
