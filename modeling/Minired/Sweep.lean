import Minired.ExpiredKeys
import Minired.Lib.Transducer

/-!
# The sweep is invisible

Two runs of the server over the same lazy commands: one with passes of the sweep in between,
one without. The databases of the two are related by `Sync` at every time, because a pass
removes expired keys only and the lazy commands do not see these; so the replies are the same
and, at the end, the live keys and values.

The exception is again the subtraction of `TTL`: where the key is still there, it may
overflow, where the sweep has removed it, it does not take place. `Event.Fits` rules this out,
in the run without the sweep.
-/

namespace Minired

open Relational Transducer

/-- What happens to the server: a command of a client, or a pass of the sweep. -/
inductive Event
  | command (now : Int64) (args : List Bytes)
  | sweep (now : Int64)

/-- When it happens. -/
def Event.time : Event → Int64
  | .command now _ => now
  | .sweep now => now

/-- The event is a pass of the sweep. -/
def Event.isSweep : Event → Bool
  | .command _ _ => false
  | .sweep _ => true

variable (libc : Libc)

/-- One event. A command puts out how it ended and what it wrote; the replies to the commands
before it have been sent. -/
def serve (s : Session) : Event → Session × Option (Except Fault Unit × Bytes)
  | .command now args =>
    let r := exec (dispatchCommand libc now args) { s with writeBuf := [] }
    (r.2, some (r.1, r.2.writeBuf))
  | .sweep now => ({ s with dict := sweepPass now s.dict }, none)

/-- A sweep, or a command that checks deadlines. -/
def Event.IsLazy : Event → Prop
  | .command _ args => ∃ name rest c, args = name :: rest ∧ findCommand name = some c ∧
      c.isLazy = true
  | .sweep _ => True

/-- The condition on an event: a `TTL` does not overflow. -/
def Event.Fits (s : Session) : Event → Prop
  | .command now args => ∀ name rest c, args = name :: rest → findCommand name = some c →
      c.NoOverflow now s.dict args
  | .sweep _ => True

variable {libc}

/-- A lazy command gives the same reply on both sides. -/
theorem serve_lazy {e : Event} (he : e.IsLazy) (hcmd : e.isSweep = false) {closing : Bool}
    {s t : Session} (hst : Over (Sync e.time) closing s t) (hfits : e.Fits s) :
    Over (Sync e.time) closing (serve libc s e).1 (serve libc t e).1 ∧
      (serve libc s e).2 = (serve libc t e).2 := by
  cases e with
  | sweep now => exact absurd hcmd (by simp [Event.isSweep])
  | command now args =>
    obtain ⟨name, rest, c, rfl, hc, hlazy⟩ := he
    -- the replies sent before do not matter
    have hclear : Over (Sync now) closing { s with writeBuf := [] } { t with writeBuf := [] } := by
      obtain ⟨hdict, hrest, hclosing⟩ := hst
      exact ⟨hdict, by rw [hrest], hclosing⟩
    obtain ⟨hres, hrel⟩ := sync_handler libc hlazy hclear (hfits name rest c rfl hc)
    simp only [serve, dispatchCommand_of_find hc]
    refine ⟨hrel, ?_⟩
    rw [hres, hrel.rest]

/-- A pass on the second side alone is not seen. -/
theorem serve_sweep {e : Event} (he : e.isSweep = true) {closing : Bool} {s t : Session}
    (hst : Over (Sync e.time) closing s t) :
    Over (Sync e.time) closing s (serve libc t e).1 ∧ (serve libc t e).2 = none := by
  cases e with
  | command now args => exact absurd he (by simp [Event.isSweep])
  | sweep now =>
    obtain ⟨hdict, hrest, hclosing⟩ := hst
    exact ⟨⟨hdict.sweep, by rw [hrest]; rfl, hclosing⟩, rfl⟩

/-- **The sweep is invisible.** Lazy commands and passes of the sweep, at times that do not
decrease: if in the run without the sweep no `TTL` overflows, the replies are those of the run
without the sweep, and from the last time on the two databases have the same live keys, with
the same values. -/
theorem sweep_invisible {s : Session} (hs : Reachable libc s.dict) {es : List Event}
    (hlazy : ∀ e ∈ es, e.IsLazy)
    (hsorted : (es.map Event.time).Pairwise fun a b => a.toInt ≤ b.toInt)
    (hfits : RunOk (serve libc) Event.Fits s (es.filter fun e => !e.isSweep)) {last : Int64}
    (hlast : ∀ e ∈ es, e.time.toInt ≤ last.toInt) :
    let plain := run (serve libc) s (es.filter fun e => !e.isSweep)
    let swept := run (serve libc) s es
    plain.2.reduceOption = swept.2.reduceOption ∧
      live last plain.1.dict = live last swept.1.dict := by
  intro plain swept
  -- both runs start in the same session; passes are quiet, and `Sync` survives the time
  have hrefl : ∀ now, Over (Sync now) s.closing s s := fun _ =>
    Session.Sound.over ⟨hs.wf, rfl⟩
  obtain ⟨hrel, hout⟩ := run_quiet (R := fun now => Over (Sync now) s.closing)
    (fun hle h => h.weaken fun _ _ h => h.mono hle)
    (fun e s t hq hst => serve_sweep hq hst)
    (fun e he hcmd s t hst hok => serve_lazy (hlazy e he) hcmd hst hok)
    hsorted hlast (fun e _ => hrefl e.time) (hrefl last) hfits
  exact ⟨hout, hrel.dict.live_eq⟩

/-- Two passes and two commands on the key of `oneSecondKey`, which expires at 2000 ms. -/
theorem sweep_invisible_expired :
    let es : List Event := [.sweep 1500, .command 1500 [ascii "GET", ascii "k"], .sweep 2500,
      .command 2500 [ascii "TTL", ascii "k"]]
    let plain := run (serve Libc.plain) oneSecondKey (es.filter fun e => !e.isSweep)
    let swept := run (serve Libc.plain) oneSecondKey es
    plain.2.reduceOption = swept.2.reduceOption ∧
      live 2500 plain.1.dict = live 2500 swept.1.dict := by
  refine sweep_invisible reachable_oneSecondKey ?_ (by decide) ?_ (by decide)
  · simp only [List.forall_mem_cons]
    exact ⟨trivial, ⟨_, _, .GET, rfl, by decide, rfl⟩, trivial, ⟨_, _, .TTL, rfl, by decide, rfl⟩,
      by simp⟩
  · refine ⟨?_, ?_, trivial⟩
    · rintro name rest c heq hfind rfl
      obtain ⟨rfl, rfl⟩ := List.cons.inj heq
      exact absurd hfind (by decide)
    · rintro name rest c heq - rfl - o ho
      -- the key still has its deadline, 500 ms ago
      have hget : some (⟨.str (ascii "v"), 2000⟩ : Obj) = some o := ho
      obtain rfl := Option.some.inj hget
      decide

/-- `SET k v` and `EXPIRE k -9223372036854775`, in November 2023: a deadline almost `2 ^ 63` ms
before the epoch. -/
def ancientKey : Session :=
  let s := (exec (dispatchCommand Libc.plain 1700000000000 [ascii "SET", ascii "k", ascii "v"])
    Session.fresh).2
  (exec (dispatchCommand Libc.plain 1700000000000
    [ascii "EXPIRE", ascii "k", ascii "-9223372036854775"]) s).2

/-- It is reached by `SET` and `EXPIRE`. -/
theorem reachable_ancientKey : Reachable Libc.plain ancientKey.dict :=
  .command 1700000000000 _ (.command 1700000000000 _ reachable_fresh)

/-- 809 ms later a `TTL` of the key of `ancientKey` overflows; after a pass of the sweep it
replies -2. -/
theorem sweep_seen_by_ttl :
    let es : List Event := [.sweep 1700000000809, .command 1700000000809 [ascii "TTL", ascii "k"]]
    let plain := run (serve Libc.plain) ancientKey (es.filter fun e => !e.isSweep)
    let swept := run (serve Libc.plain) ancientKey es
    Reachable Libc.plain ancientKey.dict ∧ (∀ e ∈ es, e.IsLazy) ∧
      ((es.map Event.time).Pairwise fun a b => a.toInt ≤ b.toInt) ∧
      plain.2.reduceOption = [(.error .signedOverflow, [])] ∧
      swept.2.reduceOption = [(.ok (), ascii ":-2" ++ crlf)] := by
  intro es plain swept
  refine ⟨reachable_ancientKey, ?_, by decide, rfl, rfl⟩
  simp only [es, List.forall_mem_cons]
  exact ⟨trivial, ⟨_, _, .TTL, rfl, by decide, rfl⟩, by simp⟩

end Minired
