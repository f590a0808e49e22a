import Minired.Linearizable

/-!
# Keys that clients share

Three ways in which clients work together through one key, each a small specification of its own
and what it promises over any run of the loop, whoever sends the commands and whatever is done to
other keys in between:

* a queue (`RPUSH`, `LPOP`): what is popped is what was pushed, in that order, each value once;
* a counter (`INCR`, `DECR`, `INCRBY`, `DECRBY`): every reply is the sum so far, and no addition
  is lost;
* a lock (`SETNX`, `DEL`): nobody gets it while somebody has it.

`HoldsAt key v g` is the relation between the store and these specifications. A command that does
not name the key keeps it, and so does the sweep, for the value has no deadline
(`HoldsAt.hidden`). The calls on the key are steps of the specification (`CallsFollow`), and so
every run of the loop is one of it (`CallsFollow.loop`).
-/

namespace Minired

open Relational Refinement

/-! ### The calls on a key -/

/-- The command of a call on the key, if it is one of `cs`. -/
def callOn (key : Bytes) (cs : List Command) : List Bytes → Option Command
  | name :: k :: _ => if k = key then (findCommand name).filter (· ∈ cs) else none
  | _ => none

/-- The call is one of `cs` on the key, or the command does not name the key. -/
def SharedAs (key : Bytes) (cs : List Command) (args : List Bytes) : Prop :=
  (callOn key cs args).isSome = true ∨ Unnamed args key

/-- The event is one of these calls. -/
def StoreEvent.isOn (key : Bytes) (cs : List Command) : StoreEvent → Bool
  | .command _ args => (callOn key cs args).isSome
  | .sweep _ _ => false

/-- The event is one of these calls, or has nothing to do with the key. The sweep may look at it. -/
def StoreEvent.Shares (key : Bytes) (cs : List Command) : StoreEvent → Prop
  | .command _ args => SharedAs key cs args
  | .sweep _ _ => True

variable {libc : Libc} {clock : ℕ → Int64} {key : Bytes} {cs : List Command} {v : Option Value}
  {g g' : Globals}

/-- A call on the key names it first. -/
theorem of_callOn {args : List Bytes} {c : Command} (h : callOn key cs args = some c) :
    ∃ name rest, args = name :: key :: rest ∧ findCommand name = some c ∧ c ∈ cs := by
  rcases args with _ | ⟨name, _ | ⟨k, rest⟩⟩
  · cases h
  · cases h
  · rw [callOn] at h
    split_ifs at h with hk
    obtain ⟨hfind, hmem⟩ := Option.filter_eq_some_iff.mp h
    exact ⟨name, rest, by rw [hk], hfind, by simpa using hmem⟩

/-- The key holds the value, without a deadline, or nothing. -/
structure HoldsAt (key : Bytes) (v : Option Value) (g : Globals) : Prop where
  wf : g.dict.WF
  get : dictGet g.dict key = v.map newObj

namespace HoldsAt

/-- Whenever it is looked at, the value is live. -/
theorem live_eq (h : HoldsAt key v g) (now : Int64) : live now g.dict key = v.map newObj := by
  cases v with
  | none => rw [live, h.get]; rfl
  | some v => exact live_newObj h.get

/-- What has nothing to do with the key leaves it as it is. -/
theorem hidden (h : HoldsAt key v g) {e : StoreEvent} {reply : Bytes} (he : e.Shares key cs)
    (hnot : e.isOn key cs = false) (hstep : Globals.Step libc g e reply g') :
    HoldsAt key v g' := by
  cases hstep with
  | @command _ now args s hrun =>
    obtain ⟨s₀, hs₀⟩ : ∃ s₀ : Session, s₀ = { g with writeBuf := [], closing := false } := ⟨_, rfl⟩
    have hunnamed : Unnamed args key := by
      refine he.resolve_left fun hon => ?_
      rw [StoreEvent.isOn, hon] at hnot
      cases hnot
    have hwf : s₀.dict.WF := by rw [hs₀]; exact h.wf
    have hend : (exec (dispatchCommand libc now args) s₀).2 = s := by rw [hs₀, hrun]
    refine ⟨hend ▸ wf_dispatchCommand libc now args hwf, ?_⟩
    rw [← hend, frame_dispatchCommand now hwf hunnamed, hs₀]
    exact h.get
  | @sweep _ now k =>
    refine ⟨wf_checkExpiry h.wf now k, ?_⟩
    show dictGet (checkExpiry now g.dict k).1 key = _
    rw [dictGet_checkExpiry h.wf]
    by_cases hk : key = k
    · rw [← hk, Function.update_self, h.live_eq]
    · rw [Function.update_of_ne hk, h.get]

/-- The check for expiry finds nothing. -/
theorem check (h : HoldsAt key v g) (now : Int64) :
    HoldsAt key v { g with dict := (checkExpiry now g.dict key).1 } :=
  have hstep : Globals.Step Libc.plain g (.sweep now key) [] _ := .sweep
  have hshares : StoreEvent.Shares key [] (.sweep now key) := trivial
  h.hidden hshares rfl hstep

/-- A value that is stored is held. -/
theorem set (h : HoldsAt key v g) (w : Value) :
    HoldsAt key (some w) { g with dict := dictSet g.dict key (newObj w) } :=
  ⟨wf_dictSet h.wf key _, dictGet_dictSet_self h.wf key _⟩

/-- An empty database. -/
theorem fresh (key : Bytes) : HoldsAt key none Session.fresh.toGlobals :=
  ⟨wf_dictNew, congrFun dictGet_dictNew key⟩

/-- A key that is deleted holds nothing. -/
theorem del (h : HoldsAt key v g) : HoldsAt key none { g with dict := (dictDel g.dict key).1 } := by
  refine ⟨wf_dictDel h.wf key, ?_⟩
  show dictGet (dictDel g.dict key).1 key = _
  rw [dictGet_dictDel h.wf, Function.update_self]
  rfl

/-- A value that is changed is held. -/
theorem modify {x : Value} (h : HoldsAt key (some x) g) (w : Value) :
    HoldsAt key (some w) { g with dict := dictModify g.dict key (Obj.setValue w) } := by
  refine ⟨wf_dictModify h.wf key _, ?_⟩
  show dictGet (dictModify g.dict key (Obj.setValue w)) key = _
  rw [dictGet_dictModify_self h.wf, h.get]
  rfl

end HoldsAt

/-! ### Specifications of the calls -/

/-- The calls of `cs` on the key, in a run. -/
def callsOn (key : Bytes) (cs : List Command) (trace : List (StoreEvent × Bytes)) :
    List (StoreEvent × Bytes) := trace.filter fun io => io.1.isOn key cs

/-- What the handlers do with the key is allowed by the specification, whose state is the value. -/
def CallsFollow {τ : Type} (libc : Libc) (key : Bytes) (cs : List Command) (f : τ → Option Value)
    (spec : Spec τ StoreEvent Bytes) : Prop :=
  ∀ (c : Command) (now : Int64) (name : Bytes) (rest : List Bytes) (s s' : Session) (t : τ),
    c ∈ cs → findCommand name = some c → s.writeBuf = [] → HoldsAt key (f t) s.toGlobals →
    exec (c.handler libc now (name :: key :: rest)) s = (.ok (), s') →
    ∃ t', spec t (.command now (name :: key :: rest)) s'.writeBuf t' ∧
      HoldsAt key (f t') s'.toGlobals

namespace CallsFollow

variable {τ : Type} {f : τ → Option Value} {spec : Spec τ StoreEvent Bytes}

/-- **Simulation.** The calls are steps of the specification, everything else it does not see. -/
theorem refinesPart (h : CallsFollow libc key cs f spec) :
    RefinesPart (fun g t => HoldsAt key (f t) g) (StoreEvent.Shares key cs)
      (StoreEvent.isOn key cs) (Globals.Step libc) spec := by
  intro g t e reply g' hshares hholds hstep
  refine ⟨fun hon => ?_, fun hnot => hholds.hidden hshares hnot hstep⟩
  cases hstep with
  | sweep => cases hon
  | @command _ now args s hrun =>
    obtain ⟨c, hc⟩ := Option.isSome_iff_exists.mp hon
    obtain ⟨name, rest, rfl, hfind, hmem⟩ := of_callOn hc
    rw [dispatchCommand_of_find hfind] at hrun
    exact h c now name rest _ s t hmem hfind rfl hholds hrun

/-- **Runs of the loop.** Whoever sends the calls, they are a run of the specification. -/
theorem loop (h : CallsFollow libc key cs f spec) {t : τ} (hstart : HoldsAt key (f t) g)
    (events : List LoopEvent)
    (hshared : ∀ d ∈ (loopRun libc clock g events).log, SharedAs key cs d.args)
    (hrunning : (loopRun libc clock g events).ended = false) :
    ∃ trace t', (loopRun libc clock g events).Linearized clock trace ∧
      Runs spec t (callsOn key cs trace) t' ∧
      HoldsAt key (f t') (loopRun libc clock g events).globals := by
  obtain ⟨trace, hran, -⟩ := Server.Ran.run (g := g) events hrunning
  have hshares : ∀ io ∈ trace, StoreEvent.Shares key cs io.1 := by
    rintro ⟨e, reply⟩ hio
    cases e with
    | sweep now k => trivial
    | command now args => exact hran.toLinearized.of_log hshared hio
  obtain ⟨t', hruns, hend⟩ := h.refinesPart.runs hran.runs hshares hstart
  exact ⟨trace, t', hran.toLinearized, hruns, hend⟩

end CallsFollow

/-- The event is a call of the command. -/
def StoreEvent.calls (c : Command) : StoreEvent → Bool
  | .command _ args => findCommand (arg args 0) = some c
  | .sweep _ _ => false

/-- The arguments behind the key. -/
def StoreEvent.values : StoreEvent → List Bytes
  | .command _ args => args.drop 2
  | .sweep _ _ => []

/-! ### A queue -/

/-- The list of the elements; when there is none, the key is missing. -/
def queueValue (q : List Bytes) : Option Value := if q = [] then none else some (.list q)

/-- **A queue.** Values go in at one end and come out at the other. -/
inductive Queue.Step : Spec (List Bytes) StoreEvent Bytes
  | push {q : List Bytes} {now : Int64} {args : List Bytes} {reply : Bytes}
      (hc : findCommand (arg args 0) = some .RPUSH)
      (hreply : args.drop 2 ≠ [] →
        reply = (RespValue.integer (q ++ args.drop 2).length).encode) :
      Step q (.command now args) reply (q ++ args.drop 2)
  | pop {q : List Bytes} {now : Int64} {args : List Bytes}
      (hc : findCommand (arg args 0) = some .LPOP) :
      Step q (.command now args) (RespValue.ofOption q.head?).encode q.tail

section Queue

variable {q : List Bytes} {s : Session}

/-- `RPUSH` appends to the queue and replies its length. -/
theorem exec_rpush (h : HoldsAt key (queueValue q) s.toGlobals) (now : Int64) (name : Bytes)
    {values : List Bytes} (hne : values ≠ []) :
    ∃ d, exec (cmdRpush now (name :: key :: values)) s = (.ok (), { s with
        dict := d
        writeBuf := s.writeBuf ++ (RespValue.integer (q ++ values).length).encode }) ∧
      HoldsAt key (queueValue (q ++ values)) { s.toGlobals with dict := d } := by
  have hlen : 3 ≤ (name :: key :: values).length := by
    have := List.length_pos_iff.mpr hne
    simp only [List.length_cons]
    omega
  have hlive := h.live_eq now
  rw [cmdRpush, pushWith, needArgs_of_le hlen, getOrCreateList, getOrCreate_bind,
    show arg (name :: key :: values) 1 = key from rfl]
  have hvalue : queueValue (q ++ values) = some (.list (q ++ values)) :=
    if_neg (List.append_ne_nil_of_right_ne_nil q hne)
  rw [hvalue]
  by_cases hq : q = []
  · subst hq
    rw [exec_withKey_missing h.wf hlive]
    -- the key is made with an empty list, to which the elements are pushed
    have hmade := ((h.check now).set (.list [])).modify (.list (values.foldl listRpush []))
    rw [foldl_listRpush] at hmade
    refine ⟨_, ?_, hmade⟩
    have hfold := foldl_listRpush values []
    rw [← hfold]
    rfl
  · rw [queueValue, if_neg hq] at hlive h
    rw [exec_withKey_live h.wf hlive]
    -- the list is there, and grows
    have hmade := h.modify (.list (values.foldl listRpush q))
    rw [foldl_listRpush] at hmade
    refine ⟨_, ?_, hmade⟩
    have hfold := foldl_listRpush values q
    rw [← hfold]
    rfl

/-- `LPOP` takes the head of the queue, and the key with the last one. -/
theorem exec_lpop (h : HoldsAt key (queueValue q) s.toGlobals) (now : Int64) (name : Bytes)
    (rest : List Bytes) :
    ∃ d, exec (cmdLpop now (name :: key :: rest)) s = (.ok (), { s with
        dict := d
        writeBuf := s.writeBuf ++ (RespValue.ofOption q.head?).encode }) ∧
      HoldsAt key (queueValue q.tail) { s.toGlobals with dict := d } := by
  have hlive := h.live_eq now
  have hlen : 2 ≤ (name :: key :: rest).length := by simp
  rw [cmdLpop, popWith, needArgs_of_le hlen]
  rcases q with _ | ⟨x, q⟩
  · rw [show arg (name :: key :: rest) 1 = key from rfl, exec_withKey_missing h.wf hlive]
    exact ⟨_, rfl, h.check now⟩
  · rw [queueValue, if_neg (List.cons_ne_nil x q)] at hlive h
    rw [show arg (name :: key :: rest) 1 = key from rfl, exec_withKey_live h.wf hlive]
    have hmade := h.modify (.list q)
    rcases q with _ | ⟨y, q⟩
    · -- the last element takes the key with it
      exact ⟨_, rfl, hmade.del⟩
    · exact ⟨_, rfl, hmade⟩

/-- The handlers are a queue. -/
theorem queue_follows : CallsFollow libc key [.RPUSH, .LPOP] queueValue Queue.Step := by
  intro c now name rest s s' q hc hfind hbuf h hrun
  rcases List.mem_pair.mp hc with rfl | rfl
  · have hpushed : exec (cmdRpush now (name :: key :: rest)) s = (.ok (), s') := hrun
    by_cases hne : rest = []
    · -- nothing to push is an error
      subst hne
      have hshort : (name :: key :: ([] : List Bytes)).length < 3 := by simp
      rw [cmdRpush, pushWith, needArgs_short hshort, exec_emit] at hpushed
      obtain rfl := (Prod.mk.inj hpushed).2
      refine ⟨q ++ [], .push hfind (fun hvalues => absurd rfl hvalues), ?_⟩
      rw [List.append_nil]
      exact h
    · obtain ⟨d, hexec, hholds⟩ := exec_rpush h now name hne
      rw [hexec] at hpushed
      obtain rfl := (Prod.mk.inj hpushed).2
      exact ⟨q ++ rest, .push hfind fun _ => by rw [hbuf]; rfl, hholds⟩
  · have hpopped : exec (cmdLpop now (name :: key :: rest)) s = (.ok (), s') := hrun
    obtain ⟨d, hexec, hholds⟩ := exec_lpop h now name rest
    rw [hexec] at hpopped
    obtain rfl := (Prod.mk.inj hpopped).2
    refine ⟨q.tail, ?_, hholds⟩
    rw [hbuf]
    exact .pop hfind

/-- **First in, first out.** The replies to `LPOP` are null or a value, and the values that were
there and those that were pushed are the values that came out and those that are there now, in this
order. -/
def Fifo (q : List Bytes) (calls : List (StoreEvent × Bytes)) (q' : List Bytes) : Prop :=
  ∃ pops : List (Option Bytes),
    (calls.filter fun io => io.1.calls .LPOP).map Prod.snd =
      pops.map (fun x => (RespValue.ofOption x).encode) ∧
    q ++ (calls.filter fun io => io.1.calls .RPUSH).flatMap (fun io => io.1.values) =
      pops.reduceOption ++ q'

/-- **First in, first out**, by induction on the calls. -/
theorem fifo_of_runs {q q' : List Bytes} {calls : List (StoreEvent × Bytes)}
    (h : Runs Queue.Step q calls q') : Fifo q calls q' := by
  induction h with
  | nil q => exact ⟨[], rfl, List.append_nil q⟩
  | @cons q _ _ _ _ _ hstep _ ih =>
    obtain ⟨pops, hreplies, hvalues⟩ := ih
    cases hstep with
    | push hc =>
      refine ⟨pops, ?_, ?_⟩
      · rw [List.filter_cons_of_neg (by simp [StoreEvent.calls, hc]), hreplies]
      · rw [List.filter_cons_of_pos (by simp [StoreEvent.calls, hc]), List.flatMap_cons,
          ← List.append_assoc]
        exact hvalues
    | pop hc =>
      refine ⟨q.head? :: pops, ?_, ?_⟩
      · rw [List.filter_cons_of_pos (by simp [StoreEvent.calls, hc]), List.map_cons, hreplies]
        rfl
      · rw [List.filter_cons_of_neg (by simp [StoreEvent.calls, hc])]
        rcases q with _ | ⟨x, q⟩
        · exact hvalues
        · exact congrArg (x :: ·) hvalues

end Queue

/-- **A queue between clients.** As long as the clients only push to the key and pop from it, or
leave it alone, each call has the reply of a queue, over all clients together: what is popped is
what was pushed, in that order, and nothing twice. -/
theorem shared_queue {q : List Bytes} (hq : HoldsAt key (queueValue q) g) (events : List LoopEvent)
    (hshared : ∀ d ∈ (loopRun libc clock g events).log, SharedAs key [.RPUSH, .LPOP] d.args)
    (hrunning : (loopRun libc clock g events).ended = false) :
    ∃ trace q', (loopRun libc clock g events).Linearized clock trace ∧
      Runs Queue.Step q (callsOn key [.RPUSH, .LPOP] trace) q' ∧
      Fifo q (callsOn key [.RPUSH, .LPOP] trace) q' ∧
      HoldsAt key (queueValue q') (loopRun libc clock g events).globals := by
  obtain ⟨trace, q', hlin, hruns, hend⟩ := queue_follows.loop hq events hshared hrunning
  exact ⟨trace, q', hlin, hruns, fifo_of_runs hruns, hend⟩

/-- One client pushes two jobs, another one takes the first, with the sweep in between. -/
def queueEvents : List LoopEvent :=
  [.io (.accept 5), .io (.accept 6),
    .io (.ready 5 (some ([respArray [ascii "RPUSH", ascii "q", ascii "a", ascii "b"]], .again))
      none),
    .sweep 0 (ascii "q"),
    .io (.ready 6 (some ([respArray [ascii "LPOP", ascii "q"]], .again)) none)]

/-- The job of the second client comes from the queue of both. -/
theorem shared_queue_jobs :
    let s := loopRun Libc.plain (fun _ => 1000) Session.fresh.toGlobals queueEvents
    (s.clients 6).map Client.writeBuf = some (ascii "$1" ++ crlf ++ ascii "a" ++ crlf) ∧
      ∃ trace q', Fifo [] (callsOn (ascii "q") [.RPUSH, .LPOP] trace) q' ∧
        HoldsAt (ascii "q") (queueValue q') s.globals := by
  intro s
  have hlog : s.log.map Dispatch.args =
      [[ascii "RPUSH", ascii "q", ascii "a", ascii "b"], [ascii "LPOP", ascii "q"]] := by
    decide
  have hshared : ∀ d ∈ s.log, SharedAs (ascii "q") [.RPUSH, .LPOP] d.args := by
    intro d hd
    have hargs : d.args ∈ s.log.map Dispatch.args := List.mem_map_of_mem hd
    rw [hlog, List.mem_pair] at hargs
    rcases hargs with hargs | hargs <;> rw [hargs] <;> exact .inl (by decide)
  obtain ⟨trace, q', -, -, hfifo, hend⟩ :=
    shared_queue (q := []) (.fresh _) queueEvents hshared (by decide)
  exact ⟨by decide, trace, q', hfifo, hend⟩

/-! ### A counter -/

/-- A number as it is printed. -/
theorem decimalText_decimalInt (v : Int) : DecimalText (decimalInt v) v := by
  have hdigits : ∀ n, ∀ b ∈ decimal n, isdigit b = true := by
    intro n b hb
    obtain ⟨c, hc, rfl⟩ := List.mem_map.mp hb
    exact (isdigit_of_char (decimal_digits n c hc)).1
  have hne : ∀ n, decimal n ≠ [] := by
    intro n hnil
    obtain ⟨b, bs, hcons, -⟩ := decimal_eq_cons n
    rw [hnil] at hcons
    cases hcons
  have hvalue : ∀ n : ℕ, (digitsValue (decimal n) : Int) = n := by
    intro n
    have hend : ∀ b ∈ ([] : Bytes).head?, isdigit b = false := by simp
    have hscan := scanDigits_decimal n hend
    rw [List.append_nil, scanDigits_eq (hdigits n), zero_mul, zero_add] at hscan
    exact congrArg Nat.cast (Prod.mk.inj hscan).1
  rw [decimalInt]
  split_ifs with hneg
  · have htext := DecimalText.minus (hne v.natAbs) (hdigits v.natAbs)
    rwa [hvalue, show -(v.natAbs : Int) = v by omega] at htext
  · have htext := DecimalText.unsigned (hne v.natAbs) (hdigits v.natAbs)
    rwa [hvalue, show (v.natAbs : Int) = v by omega] at htext

/-- A number of 64 bits. -/
abbrev LongLong := { n : Int // IsLongLong n }

/-- The number in decimal, if there is one. -/
def counterValue (n : Option LongLong) : Option Value := n.map fun n => .str (decimalInt n)

/-- What the call adds. -/
def StoreEvent.delta : StoreEvent → Option Int
  | .command _ args => (findCommand (arg args 0)).bind fun c => c.increment args
  | .sweep _ _ => none

/-- **A counter.** Without a counter, the first call adds to 0. -/
inductive Counter.Step : Spec (Option LongLong) StoreEvent Bytes
  | add {n : Option LongLong} {e : StoreEvent} {delta : Int} {m : LongLong}
      (hdelta : e.delta = some delta) (hsum : (m : Int) = n.elim 0 Subtype.val + delta) :
      Step n e (RespValue.integer m).encode (some m)
  | refuse {n : Option LongLong} {e : StoreEvent} {reply : Bytes} (hnone : e.delta = none) :
      Step n e reply n

section Counter

variable {n : Option LongLong} {s s' : Session}

/-- An addition that returns has not overflowed. -/
theorem doIncr_counter (h : HoldsAt key (counterValue n) s.toGlobals) {now : Int64} {delta : Int}
    (hdelta : IsLongLong delta) (hrun : exec (doIncr now key delta) s = (.ok (), s')) :
    ∃ m : LongLong, (m : Int) = n.elim 0 Subtype.val + delta ∧
      s'.writeBuf = s.writeBuf ++ (RespValue.integer m).encode ∧
      HoldsAt key (counterValue (some m)) s'.toGlobals := by
  have hlive := h.live_eq now
  cases n with
  | none =>
    rw [exec_doIncr_missing h.wf hlive hdelta] at hrun
    obtain rfl := (Prod.mk.inj hrun).2
    exact ⟨⟨delta, hdelta⟩, (zero_add delta).symm, rfl, (h.check now).set _⟩
  | some n =>
    have hread := strtoll_of_decimalText (decimalText_decimalInt n) n.2
    have haccepts : Accepts (decimalInt n) := by
      rw [Accepts, hread]
      rfl
    by_cases hsum : IsLongLong ((strtoll (decimalInt n)).1 + delta)
    · rw [exec_doIncr_accepted h.wf hlive rfl haccepts hsum] at hrun
      obtain rfl := (Prod.mk.inj hrun).2
      exact ⟨⟨_, hsum⟩, congrArg (fun r => r.1 + delta) hread, rfl, h.modify _⟩
    · rw [exec_doIncr_overflow h.wf hlive rfl haccepts hsum] at hrun
      cases (Prod.mk.inj hrun).1

/-- The commands that count. -/
def countCommands : List Command := [.INCR, .DECR, .INCRBY, .DECRBY]

/-- Without a number there is nothing to convert. -/
theorem three_le_of_stoll {args : List Bytes} {d : Int} (h : stoll (arg args 2) = .ok d) :
    3 ≤ args.length := by
  by_contra hlen
  have hnil : arg args 2 = [] := List.getD_eq_default _ _ (by omega)
  rw [hnil] at h
  cases h

/-- A command whose number is missing replies an error; with a bad number it does not return. -/
theorem toGlobals_of_stoll {name : String} {args : List Bytes} {f : Int → Cmd Unit}
    (hbad : (stoll (arg args 2)).toOption = none)
    (hrun : exec (needArgs 3 name args (raise (stoll (arg args 2)) >>= f)) s = (.ok (), s')) :
    s'.toGlobals = s.toGlobals := by
  by_cases hlen : args.length < 3
  · rw [needArgs_short hlen, exec_emit] at hrun
    obtain rfl := (Prod.mk.inj hrun).2
    rfl
  · rw [needArgs_of_le (not_lt.mp hlen)] at hrun
    cases hresult : stoll (arg args 2) with
    | error fault =>
      rw [hresult] at hrun
      cases (Prod.mk.inj hrun).1
    | ok d =>
      rw [hresult] at hbad
      cases hbad

/-- The handlers are a counter. -/
theorem counter_follows : CallsFollow libc key countCommands counterValue Counter.Step := by
  intro c now name rest s s' n hc hfind hbuf h hrun
  have hdeltas : StoreEvent.delta (.command now (name :: key :: rest)) =
      c.increment (name :: key :: rest) := by
    rw [StoreEvent.delta, show arg (name :: key :: rest) 0 = name from rfl, hfind]
    rfl
  cases hincr : c.increment (name :: key :: rest) with
  | some delta =>
    -- an increment: enough arguments, a number, and no overflow
    have hcount : c.ValidCount (name :: key :: rest) := by
      obtain ⟨rfl, -⟩ | ⟨rfl, -⟩ | ⟨rfl, hstoll⟩ | ⟨rfl, d, hstoll, -⟩ := increment_cases hincr
      · exact Nat.le_add_left 2 _
      · exact Nat.le_add_left 2 _
      · exact three_le_of_stoll hstoll
      · exact three_le_of_stoll hstoll
    have hover : ¬c.Overflows (name :: key :: rest) := by
      rintro ⟨rfl, hstoll⟩
      have hthrow : exec (cmdDecrby now _) s = _ := exec_decrby_overflow hcount hstoll
      cases (Prod.mk.inj (hthrow.symm.trans hrun)).1
    rw [exec_increment hincr hcount hover] at hrun
    obtain ⟨m, hsum, hreply, hholds⟩ := doIncr_counter h (fits_increment hincr hover) hrun
    refine ⟨some m, ?_, hholds⟩
    rw [hreply, hbuf]
    exact .add (hdeltas.trans hincr) hsum
  | none =>
    -- what was to be added is no number, or was missing
    refine ⟨n, .refuse (hdeltas.trans hincr), ?_⟩
    have hsame : s'.toGlobals = s.toGlobals := by
      rw [countCommands, List.mem_cons, List.mem_cons, List.mem_pair] at hc
      rcases hc with rfl | rfl | rfl | rfl
      · cases hincr
      · cases hincr
      · exact toGlobals_of_stoll hincr hrun
      · exact toGlobals_of_stoll (Option.map_eq_none_iff.mp hincr) hrun
    rw [hsame]
    exact h

/-- **The replies of a counter** are the sums, from what it was, of what is added; it becomes the
sum of all. -/
structure Counted (n : Option LongLong) (calls : List (StoreEvent × Bytes)) (n' : Option LongLong) :
    Prop where
  replies : (calls.filter fun io => io.1.delta.isSome).map Prod.snd =
    ((calls.filterMap fun io => io.1.delta).scanl (· + ·) (n.elim 0 Subtype.val)).tail.map
      fun sum => (RespValue.integer sum).encode
  sum : n'.elim 0 Subtype.val =
    n.elim 0 Subtype.val + (calls.filterMap fun io => io.1.delta).sum

/-- **Every call counts once**, by induction on the calls. -/
theorem counted_of_runs {n' : Option LongLong} {calls : List (StoreEvent × Bytes)}
    (h : Runs Counter.Step n calls n') : Counted n calls n' := by
  induction h with
  | nil n => exact ⟨rfl, (add_zero _).symm⟩
  | @cons n _ _ e _ calls hstep _ ih =>
    cases hstep with
    | @add _ _ delta m hdelta hsum =>
      have hdeltas : ((e, (RespValue.integer m).encode) :: calls).filterMap
          (fun io => io.1.delta) = delta :: calls.filterMap fun io => io.1.delta :=
        List.filterMap_cons_some hdelta
      have hsome : e.delta.isSome = true := by rw [hdelta]; rfl
      refine ⟨?_, ?_⟩
      · rw [hdeltas, List.filter_cons_of_pos (by exact hsome), List.map_cons, ih.replies,
          List.scanl_cons, ← hsum]
        -- the sums begin with the one that this call replies
        cases calls.filterMap fun io => io.1.delta with
        | nil => rfl
        | cons delta deltas =>
          rw [show (some m).elim 0 Subtype.val = (m : Int) from rfl, List.scanl_cons]
          rfl
      · rw [hdeltas, List.sum_cons, ← add_assoc, ← hsum, ih.sum]
        rfl
    | refuse hnone =>
      have hdeltas : ∀ reply, ((e, reply) :: calls).filterMap (fun io => io.1.delta) =
          calls.filterMap fun io => io.1.delta := fun _ => List.filterMap_cons_none hnone
      refine ⟨?_, ?_⟩
      · rw [hdeltas, List.filter_cons_of_neg (by simp [hnone]), ih.replies]
      · rw [hdeltas, ih.sum]

end Counter

/-- **A counter between clients.** As long as the clients only count with the key, or leave it
alone, no addition is lost, and each reply is the sum up to this call, over all clients together. -/
theorem shared_counter {n : Option LongLong} (hn : HoldsAt key (counterValue n) g)
    (events : List LoopEvent)
    (hshared : ∀ d ∈ (loopRun libc clock g events).log, SharedAs key countCommands d.args)
    (hrunning : (loopRun libc clock g events).ended = false) :
    ∃ trace n', (loopRun libc clock g events).Linearized clock trace ∧
      Counted n (callsOn key countCommands trace) n' ∧
      HoldsAt key (counterValue n') (loopRun libc clock g events).globals := by
  obtain ⟨trace, n', hlin, hruns, hend⟩ := counter_follows.loop hn events hshared hrunning
  exact ⟨trace, n', hlin, counted_of_runs hruns, hend⟩

/-- The counter of `counterEvents`. -/
theorem shared_counter_two :
    let s := loopRun Libc.plain (fun _ => 1000) Session.fresh.toGlobals counterEvents
    ∃ trace n', Counted none (callsOn (ascii "n") countCommands trace) n' ∧
      HoldsAt (ascii "n") (counterValue n') s.globals := by
  intro s
  have hlog : s.log.map Dispatch.args = [[ascii "INCR", ascii "n"], [ascii "INCR", ascii "n"]] := by
    decide
  have hshared : ∀ d ∈ s.log, SharedAs (ascii "n") countCommands d.args := by
    intro d hd
    have hargs : d.args ∈ s.log.map Dispatch.args := List.mem_map_of_mem hd
    rw [hlog, List.mem_pair, or_self] at hargs
    rw [hargs]
    exact .inl (by decide)
  obtain ⟨trace, n', -, hcounted, hend⟩ :=
    shared_counter (n := none) (.fresh _) counterEvents hshared (by decide)
  exact ⟨trace, n', hcounted, hend⟩

/-! ### A lock -/

/-- The text of the owner, while there is one. -/
def lockValue (owner : Option Bytes) : Option Value := owner.map .str

/-- The reply of who gets the lock. -/
def granted : Bytes := (RespValue.integer 1).encode

/-- **A lock.** It is given to nobody while it is held, and `DEL` makes it free, whoever it is. -/
inductive Lock.Step : Spec (Option Bytes) StoreEvent Bytes
  | acquire {now : Int64} {args : List Bytes}
      (he : (StoreEvent.command now args).calls .SETNX = true) :
      Step none (.command now args) granted (some (arg args 2))
  | busy {owner : Bytes} {e : StoreEvent} (he : e.calls .SETNX = true) :
      Step (some owner) e (RespValue.integer 0).encode (some owner)
  | malformed {owner : Option Bytes} {now : Int64} {args : List Bytes} {reply : Bytes}
      (he : (StoreEvent.command now args).calls .SETNX = true) (hshort : args.length < 3)
      (hreply : reply ≠ granted) : Step owner (.command now args) reply owner
  | release {owner : Option Bytes} {e : StoreEvent} {reply : Bytes} (he : e.calls .DEL = true) :
      Step owner e reply none

section Lock

variable {owner : Option Bytes} {s s' : Session}

/-- A missing key stays missing in the loop of `cmd_del`. -/
theorem holdsAt_delLoop (keys : List Bytes) (count : ℕ) (h : HoldsAt key none s.toGlobals) :
    ∃ m d, exec (keys.foldlM delCount count) s = (.ok m, { s with dict := d }) ∧
      HoldsAt key none { s.toGlobals with dict := d } := by
  induction keys generalizing count s with
  | nil => exact ⟨count, s.dict, rfl, h⟩
  | cons k keys ih =>
    have hone : exec (delCount count k) s =
        (.ok (if (dictDel s.dict k).2 then count + 1 else count),
          { s with dict := (dictDel s.dict k).1 }) := by
      rw [delCount, exec_bind, exec_dbDel]
      cases (dictDel s.dict k).2 <;> rfl
    have hnone : HoldsAt key none { s.toGlobals with dict := (dictDel s.dict k).1 } := by
      refine ⟨wf_dictDel h.wf k, ?_⟩
      show dictGet (dictDel s.dict k).1 key = none
      rw [dictGet_dictDel h.wf, Function.update_apply, h.get]
      exact ite_self none
    obtain ⟨m, d, hrest, hend⟩ := ih _ (s := { s with dict := (dictDel s.dict k).1 }) hnone
    exact ⟨m, d, by rw [List.foldlM_cons, exec_bind_ok hone, hrest], hend⟩

/-- `DEL` releases the lock. -/
theorem exec_del_lock (h : HoldsAt key (lockValue owner) s.toGlobals) (name : Bytes)
    (rest : List Bytes) :
    ∃ s', exec (cmdDel (name :: key :: rest)) s = (.ok (), s') ∧
      HoldsAt key none s'.toGlobals := by
  have hlen : 2 ≤ (name :: key :: rest).length := by simp
  have hone : exec (delCount 0 key) s =
      (.ok (if (dictDel s.dict key).2 then 0 + 1 else 0),
        { s with dict := (dictDel s.dict key).1 }) := by
    rw [delCount, exec_bind, exec_dbDel]
    cases (dictDel s.dict key).2 <;> rfl
  obtain ⟨m, d, hrest, hend⟩ := holdsAt_delLoop rest _
    (s := { s with dict := (dictDel s.dict key).1 }) h.del
  rw [cmdDel, needArgs_of_le hlen, List.tail_cons, List.foldlM_cons, bind_assoc,
    exec_bind_ok hone, exec_bind_ok hrest]
  exact ⟨_, rfl, hend⟩

/-- The handlers are a lock. -/
theorem lock_follows : CallsFollow libc key [.SETNX, .DEL] lockValue Lock.Step := by
  intro c now name rest s s' owner hc hfind hbuf h hrun
  have hcalls : StoreEvent.calls c (.command now (name :: key :: rest)) = true := by
    rw [StoreEvent.calls, show arg (name :: key :: rest) 0 = name from rfl, hfind]
    simp
  rcases List.mem_pair.mp hc with rfl | rfl
  · have hset : exec (cmdSetnx now (name :: key :: rest)) s = (.ok (), s') := hrun
    by_cases hshort : (name :: key :: rest).length < 3
    · rw [cmdSetnx, needArgs_short hshort, exec_emit] at hset
      obtain rfl := (Prod.mk.inj hset).2
      refine ⟨owner, .malformed hcalls hshort fun hreply => ?_, h⟩
      -- an error begins with another byte
      replace hreply : s.writeBuf ++ _ = granted := hreply
      rw [hbuf] at hreply
      exact absurd (congrArg List.head? hreply) (by decide)
    · rw [cmdSetnx, needArgs_of_le (not_lt.mp hshort),
        show arg (name :: key :: rest) 1 = key from rfl] at hset
      have hlive := h.live_eq now
      cases owner with
      | none =>
        rw [exec_withKey_missing h.wf hlive] at hset
        obtain rfl := (Prod.mk.inj hset).2
        refine ⟨some (arg (name :: key :: rest) 2), ?_, (h.check now).set _⟩
        show Lock.Step _ _ (s.writeBuf ++ granted) _
        rw [hbuf]
        exact .acquire hcalls
      | some owner =>
        rw [exec_withKey_live h.wf hlive] at hset
        obtain rfl := (Prod.mk.inj hset).2
        refine ⟨some owner, ?_, h⟩
        show Lock.Step _ _ (s.writeBuf ++ (RespValue.integer 0).encode) _
        rw [hbuf]
        exact .busy hcalls
  · obtain ⟨s'', hexec, hnone⟩ := exec_del_lock h name rest
    have hdel : exec (cmdDel (name :: key :: rest)) s = (.ok (), s') := hrun
    rw [hexec] at hdel
    obtain rfl := (Prod.mk.inj hdel).2
    exact ⟨none, .release hcalls, hnone⟩

/-- How often the lock was given. -/
def grants (calls : List (StoreEvent × Bytes)) : ℕ :=
  calls.countP fun io => io.1.calls .SETNX && io.2 == granted

/-- How often it was made free. -/
def releases (calls : List (StoreEvent × Bytes)) : ℕ := calls.countP fun io => io.1.calls .DEL

/-- An event calls one command. -/
theorem calls_ne {e : StoreEvent} {c c' : Command} (h : e.calls c = true) (hne : c ≠ c') :
    e.calls c' = false := by
  cases e with
  | sweep now key => cases h
  | command now args =>
    rw [StoreEvent.calls, decide_eq_true_eq] at h
    rw [StoreEvent.calls, h, decide_eq_false_iff_not]
    exact fun heq => hne (Option.some.inj heq)

/-- Who is given the lock holds it, until it is made free. -/
theorem grants_le {owner' : Option Bytes} {calls : List (StoreEvent × Bytes)}
    (h : Runs Lock.Step owner calls owner') :
    grants calls + owner.toList.length ≤ releases calls + owner'.toList.length := by
  induction h with
  | nil owner => exact le_rfl
  | @cons owner _ _ e reply calls hstep _ ih =>
    rw [grants, releases, List.countP_cons, List.countP_cons]
    rw [grants, releases] at ih
    cases hstep with
    | acquire he =>
      -- one grant more, and an owner more
      have hfree := calls_ne he (show Command.SETNX ≠ .DEL by decide)
      simp only [he, hfree, Option.toList_some, Option.toList_none, List.length_cons,
        List.length_nil] at ih ⊢
      simpa using ih
    | busy he =>
      have hfree := calls_ne he (show Command.SETNX ≠ .DEL by decide)
      have hzero : (RespValue.integer 0).encode ≠ granted := by decide
      simpa [he, hfree, hzero] using ih
    | malformed he _ hreply =>
      have hfree := calls_ne he (show Command.SETNX ≠ .DEL by decide)
      simpa [he, hfree, hreply] using ih
    | release he =>
      -- one release more, and at most one owner less
      have hset : e.calls .SETNX = false := calls_ne he (by decide)
      have hheld : owner.toList.length ≤ 1 := by cases owner <;> simp
      simp only [he, hset, Option.toList_none, List.length_nil] at ih ⊢
      simp only [Bool.false_and, Bool.false_eq_true, if_false, if_true]
      omega

end Lock

/-- **A lock between clients.** As long as the clients only use `SETNX` and `DEL` on the key, or
leave it alone, between two replies that grant the lock there is a `DEL`, over all clients together.
-/
theorem shared_lock {owner : Option Bytes} (howner : HoldsAt key (lockValue owner) g)
    (events : List LoopEvent)
    (hshared : ∀ d ∈ (loopRun libc clock g events).log, SharedAs key [.SETNX, .DEL] d.args)
    (hrunning : (loopRun libc clock g events).ended = false) :
    ∃ trace owner', (loopRun libc clock g events).Linearized clock trace ∧
      Runs Lock.Step owner (callsOn key [.SETNX, .DEL] trace) owner' ∧
      (∀ part, part <:+: (callsOn key [.SETNX, .DEL] trace) →
        grants part ≤ releases part + 1) ∧
      HoldsAt key (lockValue owner') (loopRun libc clock g events).globals := by
  obtain ⟨trace, owner', hlin, hruns, hend⟩ := lock_follows.loop howner events hshared hrunning
  refine ⟨trace, owner', hlin, hruns, ?_, hend⟩
  rintro part ⟨before, after, hparts⟩
  rw [← hparts] at hruns
  obtain ⟨last, hbefore, -⟩ := hruns.of_append
  obtain ⟨first, -, hpart⟩ := hbefore.of_append
  have hle := grants_le hpart
  have hheld : last.toList.length ≤ 1 := by cases last <;> simp
  omega

/-- Two clients want the lock, and the first one has it. -/
def lockEvents : List LoopEvent :=
  [.io (.accept 5), .io (.accept 6),
    .io (.ready 6 (some ([respArray [ascii "SETNX", ascii "m", ascii "y"]], .again)) none),
    .sweep 0 (ascii "m"),
    .io (.ready 5 (some ([respArray [ascii "SETNX", ascii "m", ascii "x"]], .again)) none)]

/-- Only one of them is granted it. -/
theorem shared_lock_two :
    let s := loopRun Libc.plain (fun _ => 1000) Session.fresh.toGlobals lockEvents
    (s.clients 6).map Client.writeBuf = some granted ∧
      (s.clients 5).map Client.writeBuf = some (ascii ":0" ++ crlf) ∧
      ∃ trace owner',
        Runs Lock.Step none (callsOn (ascii "m") [.SETNX, .DEL] trace) owner' ∧
        HoldsAt (ascii "m") (lockValue owner') s.globals := by
  intro s
  have hlog : s.log.map Dispatch.args =
      [[ascii "SETNX", ascii "m", ascii "y"], [ascii "SETNX", ascii "m", ascii "x"]] := by
    decide
  have hshared : ∀ d ∈ s.log, SharedAs (ascii "m") [.SETNX, .DEL] d.args := by
    intro d hd
    have hargs : d.args ∈ s.log.map Dispatch.args := List.mem_map_of_mem hd
    rw [hlog, List.mem_pair] at hargs
    rcases hargs with hargs | hargs <;> rw [hargs] <;> exact .inl (by decide)
  have hfree : HoldsAt (ascii "m") (lockValue none) Session.fresh.toGlobals := .fresh _
  obtain ⟨trace, owner', -, hruns, -, hend⟩ := shared_lock hfree lockEvents hshared (by decide)
  exact ⟨by decide, by decide, trace, owner', hruns, hend⟩

end Minired
