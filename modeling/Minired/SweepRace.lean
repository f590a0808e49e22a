import Minired.Frame

/-!
# The sweep and the commands, step by step

The sweep runs on a thread of its own, and no lock keeps the commands away from it. Here its
`check_expiry` is three steps: `dict_get` of the key, the test of the deadline, and `dict_del` of
the key; a command is one step. `raceStep` is a step of either thread, and a run is any sequence of
them.

Between its first two steps the sweep holds a pointer to an object. It reads the deadline of this
object, whatever a command has written there, unless a command has freed it: then it reads what
happens to be in that memory. So `SweepState.held` says whether the object is still there, and
`frees` which commands free it. From the test on the sweep knows nothing but the key, and deletes
what is stored under it. (A `FLUSHDB` in the middle of a `check_expiry` frees the table, too; the
sweep is taken to go on in the new one.)

A write of the key is therefore lost when it comes behind the test; and a `SET` also when it comes
between `dict_get` and the test, because it frees the object. This is `InWindow`, and
`sweep_keeps_write_iff` shows that at all other times the write stays.
-/

namespace Minired

open Relational Relation

/-! ### The pass in steps -/

/-- Where the sweep is in its pass. The keys are those it has still to check. -/
inductive SweepState
  /-- Before the pass. -/
  | idle
  /-- Before the `check_expiry` of the next key. -/
  | between (keys : List Bytes)
  /-- Behind `dict_get`, with a pointer to the object, which may have been freed. -/
  | held (key : Bytes) (keys : List Bytes) (fresh : Bool)
  /-- Behind the test of a deadline that has passed. -/
  | doomed (key : Bytes) (keys : List Bytes)
  /-- Behind the pass. -/
  | done

/-- A step of the sweep. The test reads the clock, and `seen` if the object has been freed. -/
inductive SweepStep
  | collect
  | get
  | test (now seen : Int64)
  | del
  | finish

/-- The deadline that the test reads through its pointer. -/
def heldDeadline (d : Dict Obj) (key : Bytes) (fresh : Bool) (seen : Int64) : Int64 :=
  match fresh, dictGet d key with
  | true, some obj => obj.expireAtMs
  | _, _ => seen

/-- `sweep_loop` and `check_expiry`, one step. -/
def sweepStep (d : Dict Obj) : SweepState → SweepStep → Option (Dict Obj × SweepState)
  | .idle, .collect => some (d, .between (dictEach d (sweepCb 20) []))
  | .between (key :: keys), .get =>
    match dictGet d key with
    | none => some (d, .between keys)
    | some _ => some (d, .held key keys true)
  | .held key keys fresh, .test now seen =>
    if heldDeadline d key fresh seen = 0 then some (d, .between keys)
    else if now.toInt < (heldDeadline d key fresh seen).toInt then some (d, .between keys)
    else some (d, .doomed key keys)
  | .doomed key keys, .del => some ((dictDel d key).1, .between keys)
  | .between [], .finish => some (d, .done)
  | _, _ => none

/-! ### Both threads -/

/-- The session of the client that is served, and the sweep. -/
structure RaceState where
  session : Session
  sweep : SweepState

/-- A step of one of the threads. -/
inductive RaceEvent
  | sweep (e : SweepStep)
  | command (now : Int64) (args : List Bytes)

/-- The arguments are those of a `SET` of the key. -/
def isSetOf (key : Bytes) : List Bytes → Bool
  | [] => false
  | name :: args =>
    findCommand name = some .SET && decide (3 ≤ (name :: args).length) &&
      arg (name :: args) 1 = key

/-- The command, between the databases `d` and `d'`, has freed the object that the key had: there is
none any more, or it is that of a `SET`, or it was made in the place of an expired one. `EXPIRE` and
`PERSIST` revive the expired one itself. -/
def frees (now : Int64) (args : List Bytes) (d d' : Dict Obj) (key : Bytes) : Bool :=
  (dictGet d' key).isNone || isSetOf key args ||
    ((live now d key).isNone && (live now d' key).isSome &&
      !(args.head?.bind findCommand = some .EXPIRE ∨ args.head?.bind findCommand = some .PERSIST))

/-- What a command does to the pointer of the sweep. -/
def SweepState.afterCommand (freed : Bytes → Bool) : SweepState → SweepState
  | .held key keys fresh => .held key keys (fresh && !freed key)
  | w => w

variable (libc : Libc)

/-- A step of a thread. A command that ends in an exception ends the program; the replies to the
commands before it have been sent. -/
def raceStep (σ : RaceState) : RaceEvent → Option RaceState
  | .sweep e =>
    (sweepStep σ.session.dict σ.sweep e).map fun r => ⟨{ σ.session with dict := r.1 }, r.2⟩
  | .command now args =>
    match exec (dispatchCommand libc now args) { σ.session with writeBuf := [] } with
    | (.ok (), s) => some ⟨s, σ.sweep.afterCommand (frees now args σ.session.dict s.dict)⟩
    | (.error _, _) => none

/-- A run. -/
def RaceTo : RaceState → RaceState → Prop :=
  ReflTransGen fun σ σ' => ∃ e, raceStep libc σ e = some σ'

/-- A run of the sweep alone. -/
def SoloTo : RaceState → RaceState → Prop :=
  ReflTransGen fun σ σ' => ∃ e, raceStep libc σ (.sweep e) = some σ'

/-- No step of a command on the key: it is not set again, and what it has stays as it was. -/
def QuietStep (key : Bytes) (σ : RaceState) (e : RaceEvent) (σ' : RaceState) : Prop :=
  match e with
  | .sweep _ => True
  | .command _ args =>
    isSetOf key args = false ∧ dictGet σ'.session.dict key = dictGet σ.session.dict key

/-- A run in which the commands do not rewrite the key, delete it, flush it or give it a
deadline. -/
def QuietTo (key : Bytes) : RaceState → RaceState → Prop :=
  ReflTransGen fun σ σ' => ∃ e, raceStep libc σ e = some σ' ∧ QuietStep key σ e σ'

variable {libc}

/-- Steps of the sweep alone are steps of both threads. -/
theorem SoloTo.race {σ σ' : RaceState} (h : SoloTo libc σ σ') : RaceTo libc σ σ' :=
  ReflTransGen.mono (fun _ _ ⟨e, he⟩ => ⟨.sweep e, he⟩) _ _ h

/-- And no command is among them. -/
theorem SoloTo.quiet {σ σ' : RaceState} (h : SoloTo libc σ σ') (key : Bytes) :
    QuietTo libc key σ σ' :=
  ReflTransGen.mono (fun _ _ ⟨e, he⟩ => ⟨.sweep e, he, trivial⟩) _ _ h

/-- A step of the sweep alone. -/
theorem SoloTo.step {s : Session} {w w' : SweepState} {e : SweepStep} {d : Dict Obj}
    (h : sweepStep s.dict w e = some (d, w')) : SoloTo libc ⟨s, w⟩ ⟨{ s with dict := d }, w'⟩ :=
  ReflTransGen.single ⟨e, by rw [raceStep, h]; rfl⟩

/-- A step that leaves the table alone. -/
theorem SoloTo.look {s : Session} {w w' : SweepState} {e : SweepStep}
    (h : sweepStep s.dict w e = some (s.dict, w')) : SoloTo libc ⟨s, w⟩ ⟨s, w'⟩ := SoloTo.step h

/-! ### Without a command in between -/

/-- The three steps are `check_expiry`. -/
theorem solo_check (now : Int64) (s : Session) (key : Bytes) (keys : List Bytes) :
    SoloTo libc ⟨s, .between (key :: keys)⟩
      ⟨{ s with dict := (checkExpiry now s.dict key).1 }, .between keys⟩ := by
  rw [checkExpiry]
  cases hget : dictGet s.dict key with
  | none => exact SoloTo.look (e := .get) (by rw [sweepStep, hget])
  | some obj =>
    have hheld : SoloTo libc ⟨s, .between (key :: keys)⟩ ⟨s, .held key keys true⟩ :=
      SoloTo.look (e := .get) (by rw [sweepStep, hget])
    have hdeadline : heldDeadline s.dict key true 0 = obj.expireAtMs := by
      simp only [heldDeadline, hget]
    refine hheld.trans ?_
    dsimp only
    split_ifs with hzero hlt
    · exact SoloTo.look (e := .test now 0) (by rw [sweepStep, hdeadline, if_pos hzero])
    · exact SoloTo.look (e := .test now 0)
        (by rw [sweepStep, hdeadline, if_neg hzero, if_pos hlt])
    · have htest : SoloTo libc ⟨s, .held key keys true⟩ ⟨s, .doomed key keys⟩ :=
        SoloTo.look (e := .test now 0)
          (by rw [sweepStep, hdeadline, if_neg hzero, if_neg hlt])
      exact htest.trans (SoloTo.step (e := .del) rfl)

/-- The keys that are left, one after the other. -/
theorem solo_keys (now : Int64) (keys : List Bytes) (s : Session) :
    SoloTo libc ⟨s, .between keys⟩
      ⟨{ s with dict := keys.foldl (fun d key => (checkExpiry now d key).1) s.dict }, .done⟩ := by
  induction keys generalizing s with
  | nil => exact SoloTo.look (e := .finish) rfl
  | cons key keys ih => exact (solo_check now s key keys).trans (ih _)

/-- **A pass without a command in between** is `sweepPass`. -/
theorem solo_sweepPass (now : Int64) (s : Session) :
    SoloTo libc ⟨s, .idle⟩ ⟨{ s with dict := sweepPass now s.dict }, .done⟩ := by
  have hcollect : SoloTo libc ⟨s, .idle⟩ ⟨s, .between (dictEach s.dict (sweepCb 20) [])⟩ :=
    SoloTo.look (e := .collect) rfl
  exact hcollect.trans (solo_keys now _ s)

/-! ### The window -/

/-- The sweep deletes the key, or may do so, whatever its deadline is: behind the test it does, and
with a pointer to an object that has been freed it may. -/
def SweepState.Exposes (key : Bytes) : SweepState → Prop
  | .held k _ fresh => k = key ∧ fresh = false
  | .doomed k _ => k = key
  | _ => False

/-- The command comes at a time when the sweep will not see what it writes. -/
def InWindow (key : Bytes) (args : List Bytes) : SweepState → Prop
  | .held k _ fresh => k = key ∧ (isSetOf key args = true ∨ fresh = false)
  | .doomed k _ => k = key
  | _ => False

/-- A command that frees the object of the key only if it sets the key. -/
theorem exposes_afterCommand {key : Bytes} {args : List Bytes} {freed : Bytes → Bool}
    (hfreed : freed key = isSetOf key args) (w : SweepState) :
    (w.afterCommand freed).Exposes key ↔ InWindow key args w := by
  cases w with
  | held k keys fresh =>
    refine and_congr_right fun hk => ?_
    rw [hk, hfreed]
    cases fresh <;> cases isSetOf key args <;> simp
  | idle => exact Iff.rfl
  | between keys => exact Iff.rfl
  | doomed k keys => exact Iff.rfl
  | done => exact Iff.rfl

/-- The key has the object, which has no deadline, and the sweep will find this out. -/
structure Safe (key : Bytes) (o : Obj) (σ : RaceState) : Prop where
  wf : σ.session.dict.WF
  get : dictGet σ.session.dict key = some o
  persistent : o.expireAtMs = 0
  clear : ¬σ.sweep.Exposes key

/-- What a step of the sweep can do: nothing that matters, find that a deadline has passed, or
delete a key for which it has found this. -/
theorem sweepStep_cases {d d' : Dict Obj} {w w' : SweepState} {e : SweepStep}
    (h : sweepStep d w e = some (d', w')) :
    (d' = d ∧ ∀ key, ¬w'.Exposes key) ∨
      (∃ key keys fresh seen, w = .held key keys fresh ∧ heldDeadline d key fresh seen ≠ 0 ∧
        d' = d ∧ w' = .doomed key keys) ∨
      ∃ key keys, w = .doomed key keys ∧ d' = (dictDel d key).1 ∧ w' = .between keys := by
  unfold sweepStep at h
  split at h
  case h_1 =>
    obtain ⟨rfl, rfl⟩ := Prod.mk.inj (Option.some.inj h)
    exact Or.inl ⟨rfl, fun _ h => h⟩
  case h_2 k keys =>
    split at h
    · obtain ⟨rfl, rfl⟩ := Prod.mk.inj (Option.some.inj h)
      exact Or.inl ⟨rfl, fun _ h => h⟩
    · -- the pointer is to the object that is there
      obtain ⟨rfl, rfl⟩ := Prod.mk.inj (Option.some.inj h)
      exact Or.inl ⟨rfl, fun _ h => absurd h.2 (by decide)⟩
  case h_3 k keys fresh now seen =>
    split_ifs at h with hzero hlt
    · obtain ⟨rfl, rfl⟩ := Prod.mk.inj (Option.some.inj h)
      exact Or.inl ⟨rfl, fun _ h => h⟩
    · obtain ⟨rfl, rfl⟩ := Prod.mk.inj (Option.some.inj h)
      exact Or.inl ⟨rfl, fun _ h => h⟩
    · obtain ⟨rfl, rfl⟩ := Prod.mk.inj (Option.some.inj h)
      exact Or.inr (Or.inl ⟨k, keys, fresh, seen, rfl, hzero, rfl, rfl⟩)
  case h_4 k keys =>
    obtain ⟨rfl, rfl⟩ := Prod.mk.inj (Option.some.inj h)
    exact Or.inr (Or.inr ⟨k, keys, rfl, rfl, rfl⟩)
  case h_5 =>
    obtain ⟨rfl, rfl⟩ := Prod.mk.inj (Option.some.inj h)
    exact Or.inl ⟨rfl, fun _ h => h⟩
  case h_6 => cases h

/-- What a command does in the race. -/
theorem raceStep_command {σ σ' : RaceState} {now : Int64} {args : List Bytes}
    (h : raceStep libc σ (.command now args) = some σ') :
    exec (dispatchCommand libc now args) { σ.session with writeBuf := [] } =
        (.ok (), σ'.session) ∧
      σ'.sweep = σ.sweep.afterCommand (frees now args σ.session.dict σ'.session.dict) := by
  rw [raceStep] at h
  rcases hrun : exec (dispatchCommand libc now args) { σ.session with writeBuf := [] } with
    ⟨_ | ⟨⟩, s⟩
  · rw [hrun] at h
    cases h
  · rw [hrun] at h
    obtain rfl := Option.some.inj h
    exact ⟨rfl, rfl⟩

/-- What the sweep does in the race. -/
theorem raceStep_sweep {σ σ' : RaceState} {e : SweepStep}
    (h : raceStep libc σ (.sweep e) = some σ') :
    sweepStep σ.session.dict σ.sweep e = some (σ'.session.dict, σ'.sweep) := by
  obtain ⟨r, hr, rfl⟩ := Option.map_eq_some_iff.mp h
  exact hr

/-- The table is well formed all the time. -/
theorem wf_raceStep {σ σ' : RaceState} {e : RaceEvent} (h : raceStep libc σ e = some σ')
    (hσ : σ.session.dict.WF) : σ'.session.dict.WF := by
  cases e with
  | sweep e =>
    obtain ⟨hd, -⟩ | ⟨-, -, -, -, -, -, hd, -⟩ | ⟨key, -, -, hd, -⟩ :=
      sweepStep_cases (raceStep_sweep h)
    · rwa [hd]
    · rwa [hd]
    · rw [hd]
      exact wf_dictDel hσ key
  | command now args =>
    have hwf := wf_dispatchCommand libc now args (s := { σ.session with writeBuf := [] }) hσ
    rwa [(raceStep_command h).1] at hwf

/-- **A quiet step** keeps what is safe. -/
theorem Safe.step {key : Bytes} {o : Obj} {σ σ' : RaceState} {e : RaceEvent}
    (hsafe : Safe key o σ) (h : raceStep libc σ e = some σ') (hquiet : QuietStep key σ e σ') :
    Safe key o σ' := by
  obtain ⟨hwf, hget, hzero, hclear⟩ := hsafe
  have hwf' := wf_raceStep h hwf
  cases e with
  | sweep e =>
    obtain ⟨hd, hw⟩ | ⟨k, keys, fresh, seen, hheld, hdeadline, hd, hw⟩ |
        ⟨k, keys, hdoomed, hd, hw⟩ := sweepStep_cases (raceStep_sweep h)
    · exact ⟨hwf', by rwa [hd], hzero, hw key⟩
    · -- the deadline of the key is read through the pointer, and it is 0
      refine ⟨hwf', by rwa [hd], hzero, fun hexposes => hdeadline ?_⟩
      rw [hw] at hexposes
      obtain rfl : k = key := hexposes
      rw [hheld] at hclear
      cases fresh with
      | false => exact absurd ⟨rfl, rfl⟩ hclear
      | true => simp only [heldDeadline, hget, hzero]
    · -- another key is deleted
      rw [hdoomed] at hclear
      refine ⟨hwf', ?_, hzero, by rw [hw]; exact id⟩
      rw [hd, dictGet_dictDel hwf, Function.update_of_ne (Ne.symm hclear), hget]
  | command now args =>
    obtain ⟨hset, hsame⟩ := hquiet
    have hget' := hsame.trans hget
    refine ⟨hwf', hget', hzero, ?_⟩
    have hfreed : frees now args σ.session.dict σ'.session.dict key = isSetOf key args := by
      have hlive : live now σ.session.dict key = some o :=
        live_eq_some_iff.mpr ⟨hget, by simp [Obj.expired, hzero]⟩
      simp [frees, hset, hget', hlive]
    rw [(raceStep_command h).2, exposes_afterCommand hfreed]
    -- no pointer to the key is left behind
    cases hw : σ.sweep with
    | held k keys fresh =>
      rw [hw] at hclear
      rintro ⟨hk, hset' | hfresh⟩
      · rw [hset] at hset'
        cases hset'
      · exact hclear ⟨hk, hfresh⟩
    | doomed k keys => rwa [hw] at hclear
    | _ => exact id

/-- A quiet run keeps it. -/
theorem Safe.run {key : Bytes} {o : Obj} {σ σ' : RaceState} (hsafe : Safe key o σ)
    (h : QuietTo libc key σ σ') : Safe key o σ' := by
  induction h with
  | refl => exact hsafe
  | tail _ hstep ih =>
    obtain ⟨e, he, hquiet⟩ := hstep
    exact ih.step he hquiet

variable (libc) in
/-- A key that is missing is missing at the end of the pass. -/
theorem lost_of_missing {key : Bytes} {s : Session} (keys : List Bytes) (hs : s.dict.WF)
    (hget : dictGet s.dict key = none) :
    ∃ σ', SoloTo libc ⟨s, .between keys⟩ σ' ∧ σ'.sweep = .done ∧
      dictGet σ'.session.dict key = none := by
  refine ⟨_, solo_keys 0 keys s, rfl, ?_⟩
  refine (checkKeys_keeps (p := fun d => d.WF ∧ dictGet d key = none) ?_ keys ⟨hs, hget⟩).2
  rintro d k ⟨hd, hnone⟩
  refine ⟨wf_checkExpiry hd 0 k, ?_⟩
  rw [dictGet_checkExpiry hd]
  by_cases hk : key = k
  · subst hk
    rw [Function.update_self, live, hnone]
    rfl
  · rw [Function.update_of_ne hk, hnone]

variable (libc) in
/-- **A key that is exposed** can be lost without any further command. -/
theorem lost_of_exposes {key : Bytes} (s : Session) {w : SweepState} (hs : s.dict.WF)
    (h : w.Exposes key) :
    ∃ σ', SoloTo libc ⟨s, w⟩ σ' ∧ σ'.sweep = .done ∧ dictGet σ'.session.dict key = none := by
  have hdoomed : ∀ keys, ∃ σ', SoloTo libc ⟨s, .doomed key keys⟩ σ' ∧ σ'.sweep = .done ∧
      dictGet σ'.session.dict key = none := by
    intro keys
    have hdel : SoloTo libc ⟨s, .doomed key keys⟩
        ⟨{ s with dict := (dictDel s.dict key).1 }, .between keys⟩ :=
      SoloTo.step (e := .del) rfl
    have hmissing : dictGet (dictDel s.dict key).1 key = none := by
      rw [dictGet_dictDel hs, Function.update_self]
    obtain ⟨σ', hrun, hdone, hnone⟩ : ∃ σ', SoloTo libc
        ⟨{ s with dict := (dictDel s.dict key).1 }, .between keys⟩ σ' ∧ σ'.sweep = .done ∧
        dictGet σ'.session.dict key = none :=
      lost_of_missing libc keys (wf_dictDel hs key) hmissing
    exact ⟨σ', hdel.trans hrun, hdone, hnone⟩
  cases w with
  | held k keys fresh =>
    obtain ⟨rfl, rfl⟩ := h
    -- the memory of the object reads as a deadline of 1
    have htest : SoloTo libc ⟨s, .held k keys false⟩ ⟨s, .doomed k keys⟩ :=
      SoloTo.look (e := .test 1 1) rfl
    obtain ⟨σ', hrun, hend⟩ := hdoomed keys
    exact ⟨σ', htest.trans hrun, hend⟩
  | doomed k keys =>
    obtain rfl : k = key := h
    exact hdoomed keys
  | _ => exact h.elim

/-! ### Acknowledged writes -/

/-- The command was a `SET` of the key that replied `+OK`, or a `PERSIST` of it that replied 1. -/
def Acknowledged (key : Bytes) (args : List Bytes) (σ' : RaceState) : Prop :=
  ∃ name rest, args = name :: rest ∧ arg args 1 = key ∧
    (findCommand name = some .SET ∧ σ'.session.writeBuf = ascii "+OK" ++ crlf ∨
      findCommand name = some .PERSIST ∧ σ'.session.writeBuf = ascii ":1" ++ crlf)

/-- A `PERSIST` that replies 1 has removed a deadline. -/
theorem exec_persist_acknowledged {args : List Bytes} {s s' : Session}
    (h : exec (cmdPersist args) s = (.ok (), s'))
    (hreply : s'.writeBuf = s.writeBuf ++ (ascii ":1" ++ crlf)) :
    ∃ o, dictGet s.dict (arg args 1) = some o ∧
      s'.dict = dictModify s.dict (arg args 1) fun o => { o with expireAtMs := 0 } := by
  rw [cmdPersist, needArgs] at h
  split_ifs at h with hlen
  · obtain rfl := (Prod.mk.inj h).2.symm
    exact absurd (List.append_cancel_left hreply) (by decide)
  · rw [exec_bind, exec_dbGet] at h
    cases hget : dictGet s.dict (arg args 1) with
    | none =>
      rw [hget] at h
      obtain rfl := (Prod.mk.inj h).2.symm
      exact absurd (List.append_cancel_left hreply) (by decide)
    | some o =>
      rw [hget] at h
      dsimp only at h
      split_ifs at h with hzero
      · obtain rfl := (Prod.mk.inj h).2.symm
        exact absurd (List.append_cancel_left hreply) (by decide)
      · obtain rfl := (Prod.mk.inj h).2.symm
        exact ⟨o, rfl, rfl⟩

/-- A run keeps the table well formed. -/
theorem wf_raceTo {σ σ' : RaceState} (h : RaceTo libc σ σ') (hσ : σ.session.dict.WF) :
    σ'.session.dict.WF := by
  induction h with
  | refl => exact hσ
  | tail _ hstep ih =>
    obtain ⟨e, he⟩ := hstep
    exact wf_raceStep he ih

/-- **The acknowledged write**: the key has an object without a deadline, and it is exposed if the
command came in the window. -/
theorem Acknowledged.spec {key : Bytes} {args : List Bytes} {now : Int64} {σ σ' : RaceState}
    (hσ : σ.session.dict.WF) (hstep : raceStep libc σ (.command now args) = some σ')
    (hack : Acknowledged key args σ') :
    ∃ o, dictGet σ'.session.dict key = some o ∧ o.expireAtMs = 0 ∧
      (σ'.sweep.Exposes key ↔ InWindow key args σ.sweep) := by
  obtain ⟨name, rest, rfl, rfl, ⟨hc, hreply⟩ | ⟨hc, hreply⟩⟩ := hack
  · obtain ⟨hrun, hsweep⟩ := raceStep_command hstep
    rw [dispatchCommand_of_find hc] at hrun
    obtain ⟨hlen, hdict⟩ := exec_set_acknowledged hrun hreply
    have hget : dictGet σ'.session.dict (arg (name :: rest) 1) =
        some (newObj (.str (arg (name :: rest) 2))) := by
      rw [hdict, dictGet_dictSet hσ, Function.update_self]
    have hset : isSetOf (arg (name :: rest) 1) (name :: rest) = true := by
      simpa [isSetOf, hc] using Nat.le_of_succ_le_succ hlen
    refine ⟨_, hget, rfl, ?_⟩
    rw [hsweep, exposes_afterCommand]
    rw [frees, hset, Bool.or_true, Bool.true_or]
  · obtain ⟨hrun, hsweep⟩ := raceStep_command hstep
    rw [dispatchCommand_of_find hc] at hrun
    obtain ⟨o, hget, hdict⟩ := exec_persist_acknowledged hrun hreply
    have hget' : dictGet σ'.session.dict (arg (name :: rest) 1) =
        some { o with expireAtMs := 0 } := by
      rw [hdict, dictGet_dictModify hσ, Function.update_self]
      exact congrArg (Option.map _) hget
    refine ⟨_, hget', rfl, ?_⟩
    rw [hsweep, exposes_afterCommand]
    -- the object is still the same
    simp [frees, isSetOf, hc, hget']

/-- **What the sweep loses.** One pass of the sweep, step by step, with any commands in between: a
key that an acknowledged `SET` or `PERSIST` has written, and that no command changes afterwards, is
there with this value when the pass ends exactly when the command did not come in the window. -/
theorem sweep_keeps_write_iff {s : Session} (hs : Reachable libc s.dict) {σ₁ σ₂ : RaceState}
    (hrun : RaceTo libc ⟨s, .idle⟩ σ₁) {now : Int64} {args : List Bytes} {key : Bytes}
    (hstep : raceStep libc σ₁ (.command now args) = some σ₂) (hack : Acknowledged key args σ₂) :
    ∃ o, dictGet σ₂.session.dict key = some o ∧
      ((∀ σ₃, QuietTo libc key σ₂ σ₃ → σ₃.sweep = .done →
          dictGet σ₃.session.dict key = some o) ↔
        ¬InWindow key args σ₁.sweep) := by
  obtain ⟨o, hget, hzero, hexposes⟩ := hack.spec (wf_raceTo hrun hs.wf) hstep
  have hwf : σ₂.session.dict.WF := wf_raceStep hstep (wf_raceTo hrun hs.wf)
  refine ⟨o, hget, ?_⟩
  rw [← hexposes]
  constructor
  · -- the rest of the pass may come right behind the command
    intro hkept hexposed
    obtain ⟨σ₃, hsolo, hdone, hnone⟩ := lost_of_exposes libc _ hwf hexposed
    have hsome := hkept σ₃ (hsolo.quiet key) hdone
    rw [hnone] at hsome
    cases hsome
  · intro hclear σ₃ hquiet _
    have hsafe : Safe key o σ₂ := ⟨hwf, hget, hzero, hclear⟩
    exact (hsafe.run hquiet).get

/-- The pass over `oneSecondKey` has its key to check. -/
theorem solo_collect_oneSecondKey :
    SoloTo Libc.plain ⟨oneSecondKey, .idle⟩ ⟨oneSecondKey, .between [ascii "k"]⟩ := by
  have hkeys : dictEach oneSecondKey.dict (sweepCb 20) [] = [ascii "k"] := by decide
  exact SoloTo.look (e := .collect) (by rw [sweepStep, hkeys])

/-- Before the sweep gets the object of the key, a `SET` of it is safe. -/
theorem sweep_keeps_set :
    let σ₁ : RaceState := ⟨oneSecondKey, .between [ascii "k"]⟩
    ∃ σ₂, raceStep Libc.plain σ₁ (.command 3000 [ascii "SET", ascii "k", ascii "w"]) = some σ₂ ∧
      ∃ o, dictGet σ₂.session.dict (ascii "k") = some o ∧
        ((∀ σ₃, QuietTo Libc.plain (ascii "k") σ₂ σ₃ → σ₃.sweep = .done →
            dictGet σ₃.session.dict (ascii "k") = some o) ↔
          ¬InWindow (ascii "k") [ascii "SET", ascii "k", ascii "w"] σ₁.sweep) := by
  intro σ₁
  exact ⟨_, rfl, sweep_keeps_write_iff reachable_oneSecondKey solo_collect_oneSecondKey.race rfl
    ⟨_, _, rfl, rfl, Or.inl ⟨by decide, rfl⟩⟩⟩

/-- The sweep finds at 3000 ms that the deadline of the key has passed, `SET k w` is acknowledged,
and then the sweep deletes the key: it is gone when the pass ends. -/
theorem sweep_loses_set :
    let key := ascii "k"
    let args := [ascii "SET", ascii "k", ascii "w"]
    ∃ σ₁ σ₂ σ₃, Reachable Libc.plain oneSecondKey.dict ∧
      RaceTo Libc.plain ⟨oneSecondKey, .idle⟩ σ₁ ∧
      raceStep Libc.plain σ₁ (.command 3000 args) = some σ₂ ∧ Acknowledged key args σ₂ ∧
      dictGet σ₂.session.dict key = some (newObj (.str (ascii "w"))) ∧
      QuietTo Libc.plain key σ₂ σ₃ ∧ σ₃.sweep = .done ∧
      dictGet σ₃.session.dict key = none := by
  intro key args
  have hget : SoloTo Libc.plain ⟨oneSecondKey, .between [key]⟩ ⟨oneSecondKey, .held key [] true⟩ :=
    SoloTo.look (e := .get) (by rw [sweepStep, get_oneSecondKey])
  have htest : SoloTo Libc.plain ⟨oneSecondKey, .held key [] true⟩ ⟨oneSecondKey, .doomed key []⟩ :=
    SoloTo.look (e := .test 3000 0) (by rw [sweepStep, if_neg (by decide), if_neg (by decide)])
  have hbefore : SoloTo Libc.plain ⟨oneSecondKey, .idle⟩ ⟨oneSecondKey, .doomed key []⟩ :=
    (solo_collect_oneSecondKey.trans hget).trans htest
  let s := (exec (dispatchCommand Libc.plain 3000 args) oneSecondKey).2
  have hset : dictGet s.dict key = some (newObj (.str (ascii "w"))) := by
    have hrun : exec (cmdSet args) oneSecondKey = (.ok (), s) := rfl
    rw [(exec_set_acknowledged hrun rfl).2, dictGet_dictSet reachable_oneSecondKey.wf]
    exact Function.update_self ..
  -- behind the `SET` the sweep goes on to delete the key
  have hexposed : (SweepState.doomed key []).Exposes key := rfl
  obtain ⟨σ₃, hsolo, hdone, hnone⟩ := lost_of_exposes Libc.plain s
    (wf_dispatchCommand _ 3000 args reachable_oneSecondKey.wf) hexposed
  exact ⟨_, ⟨s, .doomed key []⟩, σ₃, reachable_oneSecondKey, hbefore.race, rfl,
    ⟨_, _, rfl, rfl, Or.inl ⟨by decide, rfl⟩⟩, hset, hsolo.quiet key, hdone, hnone⟩

end Minired
