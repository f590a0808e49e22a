import Minired.Frame
import Minired.ExpiredKeys

/-!
# The deadline of `EXPIRE`

`EXPIRE key s` at the time `t₀` promises that the key lives until `t₀ + 1000 * s` and no longer.
Three functions have to agree on it: `cmd_expire` computes the deadline, `check_expiry` compares it
with the clock, and `cmd_ttl` subtracts the clock from it and rounds up to seconds.

* `LeftAlone` — a run of commands that do not name the key, and of sweeps, up to a time. At the end
  the key has its object still, or it is gone and the deadline has passed (`LeftAlone.remains`);
* `HoldsUntil` — what the promise means at one time: before the deadline the key is live and `TTL`
  replies the rest in seconds, rounded up; from the deadline on it is gone.

Two things break the promise, and `expire_deadline_iff` shows that they are all. A deadline of
exactly 0 is the mark of a key without one, so the key lives for ever. And the arithmetic of
`cmd_ttl` overflows when the clock and the deadline are far apart: the subtraction for a deadline in
the distant past, the rounding for one in the distant future.
-/

namespace Minired

open Relational

variable {libc : Libc} {now t : Int64} {s : Session} {args : List Bytes} {key : Bytes}
  {d e : Dict Obj} {o : Obj}

/-! ### Runs that leave a key alone -/

variable (libc) in
/-- A run up to the time `t`, without a command on the key. -/
inductive LeftAlone (key : Bytes) (t : Int64) (d : Dict Obj) : Dict Obj → Prop
  | refl : LeftAlone key t d d
  | command {now : Int64} {args : List Bytes} {s : Session} (h : LeftAlone key t d s.dict)
      (hnow : now.toInt ≤ t.toInt) (hargs : Unnamed args key) :
      LeftAlone key t d (exec (dispatchCommand libc now args) s).2.dict
  | sweep {now : Int64} {e : Dict Obj} (h : LeftAlone key t d e) (hnow : now.toInt ≤ t.toInt) :
      LeftAlone key t d (sweepPass now e)

/-- The key has the object still, or it is gone, and the deadline has passed. -/
structure Remains (t : Int64) (o : Obj) (key : Bytes) (e : Dict Obj) : Prop where
  wf : e.WF
  get : dictGet e key = some o ∨ dictGet e key = none ∧ o.expired t = true

/-- A check before the time `t` takes the object away only if its deadline has passed by then. -/
theorem Remains.checkExpiry (h : Remains t o key e) (hnow : now.toInt ≤ t.toInt) (k : Bytes) :
    Remains t o key (checkExpiry now e k).1 := by
  refine ⟨wf_checkExpiry h.wf now k, ?_⟩
  rw [dictGet_checkExpiry h.wf]
  by_cases hk : key = k
  · subst hk
    rw [Function.update_self]
    obtain hget | ⟨hget, ho⟩ := h.get
    · by_cases ho : o.expired now = true
      · -- it is removed, and at the time `t` its deadline has passed as well
        refine Or.inr ⟨?_, Obj.expired_mono hnow ho⟩
        rw [live, hget, Option.filter_some, ho]
        rfl
      · exact Or.inl (live_eq_some_iff.mpr ⟨hget, by simpa using ho⟩)
    · exact Or.inr ⟨by rw [live, hget]; rfl, ho⟩
  · rw [Function.update_of_ne hk]
    exact h.get

/-- **The run** leaves the object, until its deadline has passed. -/
theorem LeftAlone.remains (h : LeftAlone libc key t d e) (hd : d.WF)
    (hget : dictGet d key = some o) : Remains t o key e := by
  induction h with
  | refl => exact ⟨hd, Or.inl hget⟩
  | command h hnow hargs ih =>
    refine ⟨wf_dispatchCommand libc _ _ ih.wf, ?_⟩
    rw [frame_dispatchCommand _ ih.wf hargs]
    exact ih.get
  | sweep h hnow ih => exact sweepPass_keeps (fun _ k hk => hk.checkExpiry hnow k) ih

/-- Before the deadline the object is there. -/
theorem Remains.live_eq_some (h : Remains t o key e) (ho : o.expired t = false) :
    live t e key = some o := by
  obtain hget | ⟨-, hexpired⟩ := h.get
  · exact live_eq_some_iff.mpr ⟨hget, ho⟩
  · rw [ho] at hexpired
    cases hexpired

/-- From the deadline on nothing is live. -/
theorem Remains.live_eq_none (h : Remains t o key e) (ho : o.expired t = true) :
    live t e key = none := by
  obtain hget | ⟨hget, -⟩ := h.get
  · rw [live, hget, Option.filter_some, ho]
    rfl
  · rw [live, hget]
    rfl

/-! ### The commands -/

section Expire

variable {name : Bytes} {rest : List Bytes} (hc : findCommand name = some .EXPIRE) {secs : Int}
  (hsecs : stoll (arg (name :: rest) 2) = .ok secs)
  (hget : dictGet s.dict (arg (name :: rest) 1) = some o)

include hc hsecs hget

/-- `EXPIRE` of a key that is there, step by step. -/
theorem exec_expire (hlen : 3 ≤ (name :: rest).length) :
    exec (dispatchCommand libc now (name :: rest)) s =
      exec (raise (int64 (secs * 1000)) >>= fun ms => raise (int64 (now.toInt + ms)) >>= fun at' =>
        dbModify (arg (name :: rest) 1) (fun o => { o with expireAtMs := Int64.ofInt at' }) >>=
          fun _ => replyInteger 1) s := by
  rw [dispatchCommand_of_find hc]
  show exec (cmdExpire now (name :: rest)) s = _
  rw [cmdExpire, needArgs, if_neg (not_lt.mpr hlen), exec_bind, exec_dbGet, hget]
  dsimp only
  rw [hsecs, exec_raise_ok_bind]

/-- **`EXPIRE` replies 1**, for a key that is there and seconds that `std::stoll` accepts, if and
only if it has its arguments and no step of its arithmetic overflows. -/
theorem replied_expire_iff :
    Replied libc now s (name :: rest) (.integer 1) ↔
      3 ≤ (name :: rest).length ∧
        (LLONG_MIN ≤ secs * 1000 ∧ secs * 1000 ≤ LLONG_MAX) ∧
        LLONG_MIN ≤ now.toInt + secs * 1000 ∧ now.toInt + secs * 1000 ≤ LLONG_MAX := by
  by_cases hlen : (name :: rest).length < 3
  · -- the reply is an error
    refine iff_of_false (fun hreply => ?_) fun h => absurd h.1 (not_le.mpr hlen)
    rw [Replied, dispatchCommand_of_find hc] at hreply
    change (exec (cmdExpire now (name :: rest)) s).1 = _ ∧
      (exec (cmdExpire now (name :: rest)) s).2.writeBuf = _ at hreply
    rw [cmdExpire, needArgs, if_pos hlen] at hreply
    exact absurd (List.append_cancel_left hreply.2) (by decide)
  rw [Replied, exec_expire hc hsecs hget (not_lt.mp hlen), and_iff_right (not_lt.mp hlen)]
  by_cases hms : LLONG_MIN ≤ secs * 1000 ∧ secs * 1000 ≤ LLONG_MAX
  · rw [int64_of_fits hms, exec_raise_ok_bind, and_iff_right hms]
    by_cases hsum : LLONG_MIN ≤ now.toInt + secs * 1000 ∧ now.toInt + secs * 1000 ≤ LLONG_MAX
    · rw [int64_of_fits hsum]
      exact iff_of_true ⟨rfl, rfl⟩ hsum
    · -- the sum overflows, and there is no reply
      rw [int64_of_not_fits hsum]
      exact iff_of_false (fun h => by cases h.1) hsum
  · -- the product does
    rw [int64_of_not_fits hms]
    exact iff_of_false (fun h => by cases h.1) fun h => hms h.1

/-- **`EXPIRE`** that replies 1 has set the deadline, and no step of its arithmetic has
overflowed. -/
theorem expire_replied (hreply : Replied libc now s (name :: rest) (.integer 1)) :
    LLONG_MIN ≤ now.toInt + 1000 * secs ∧ now.toInt + 1000 * secs ≤ LLONG_MAX ∧
      (exec (dispatchCommand libc now (name :: rest)) s).2.dict =
        dictModify s.dict (arg (name :: rest) 1)
          fun o => { o with expireAtMs := Int64.ofInt (now.toInt + 1000 * secs) } := by
  obtain ⟨hlen, hms, hsum⟩ := (replied_expire_iff hc hsecs hget).mp hreply
  rw [mul_comm 1000 secs, exec_expire hc hsecs hget hlen, int64_of_fits hms, exec_raise_ok_bind,
    int64_of_fits hsum]
  exact ⟨hsum.1, hsum.2, rfl⟩

end Expire

/-- Rounding up to seconds, as `cmd_ttl` does it. -/
theorem ceil_seconds (ms : Int) : ⌈(ms : ℚ) / 1000⌉ = (ms + 999) / 1000 :=
  calc ⌈(ms : ℚ) / 1000⌉ = ⌈(ms : ℚ) / (1000 : ℕ)⌉ := by norm_num
    _ = -(-ms / (1000 : ℕ)) := Rat.ceil_intCast_div_natCast ms 1000
    _ = (ms + 999) / 1000 := by omega

/-- `TTL` of a key whose deadline is to come. -/
theorem exec_cmdTtl_live (hlen : ¬args.length < 2) (hget : dictGet s.dict (arg args 1) = some o)
    (hne : o.expireAtMs ≠ 0) (hlt : now.toInt < o.expireAtMs.toInt)
    (hsub : o.expireAtMs.toInt - now.toInt ≤ LLONG_MAX) :
    exec (cmdTtl now args) s =
      exec (raise (int64 (o.expireAtMs.toInt - now.toInt + 999)) >>= fun rounded =>
        replyInteger (rounded / 1000)) s := by
  have hfits : LLONG_MIN ≤ o.expireAtMs.toInt - now.toInt :=
    le_trans (by decide) (sub_nonneg.mpr hlt.le)
  have hpos : ¬o.expireAtMs.toInt - now.toInt ≤ 0 := not_le.mpr (sub_pos.mpr hlt)
  rw [cmdTtl, needArgs, if_neg hlen, exec_bind, exec_dbGet, hget]
  dsimp only
  rw [if_neg hne, int64_of_fits ⟨hfits, hsub⟩, exec_raise_ok_bind, if_neg hpos]

/-- `GET` of a key of which nothing is live. -/
theorem replied_get_missing (hs : s.dict.WF) (hlive : live now s.dict key = none) :
    Replied libc now s [ascii "GET", key] .nullBulk :=
  replied_missing (c := .GET) (by decide) hs hlive rfl fun _ => rfl

/-! ### The promise -/

variable (libc) in
/-- The promise at the time `t`, in every run that leaves the key alone. -/
def HoldsUntil (deadline : Int) (key : Bytes) (t : Int64) (d : Dict Obj) : Prop :=
  ∀ s : Session, LeftAlone libc key t d s.dict →
    (t.toInt < deadline → (live t s.dict key).isSome ∧
      Replied libc t s [ascii "TTL", key] (.integer ⌈((deadline - t.toInt : Int) : ℚ) / 1000⌉)) ∧
    (deadline ≤ t.toInt → live t s.dict key = none ∧
      Replied libc t s [ascii "TTL", key] (.integer (-2)) ∧
      Replied libc t s [ascii "GET", key] .nullBulk)

/-- The arithmetic of `TTL` at the time `t` does not overflow. -/
def TtlFits (deadline : Int) (t : Int64) : Prop :=
  (t.toInt < deadline → deadline - t.toInt + 999 ≤ LLONG_MAX) ∧
    (deadline ≤ t.toInt → LLONG_MIN ≤ deadline - t.toInt)

section Promise

variable {deadline : Int} (hs : s.dict.WF) (hne : o.expireAtMs ≠ 0)
  (hdeadline : o.expireAtMs.toInt = deadline)

/-- `TTL` runs as `cmd_ttl`. -/
theorem dispatchCommand_ttl :
    dispatchCommand libc t [ascii "TTL", key] = cmdTtl t [ascii "TTL", key] :=
  dispatchCommand_of_find (c := .TTL) (by decide)

include hne hdeadline

/-- The object has expired when its deadline has come. -/
theorem expired_of_deadline : o.expired t = true ↔ deadline ≤ t.toInt := by
  rw [Obj.expired_iff, hdeadline]
  exact ⟨fun h => h.2, fun h => ⟨hne, h⟩⟩

/-- `TTL` before the deadline. -/
theorem replied_ttl_live (hget : dictGet s.dict key = some o) (hlt : t.toInt < deadline)
    (hfits : deadline - t.toInt + 999 ≤ LLONG_MAX) :
    Replied libc t s [ascii "TTL", key] (.integer ⌈((deadline - t.toInt : Int) : ℚ) / 1000⌉) := by
  have hlow : LLONG_MIN ≤ deadline - t.toInt + 999 :=
    le_trans (show LLONG_MIN ≤ 0 by decide) (by omega)
  have hsub : o.expireAtMs.toInt - t.toInt ≤ LLONG_MAX := by omega
  rw [Replied, dispatchCommand_ttl, exec_cmdTtl_live (lt_irrefl 2) hget hne (by omega) hsub,
    hdeadline, int64_of_fits ⟨hlow, hfits⟩, exec_raise_ok_bind, ceil_seconds]
  exact ⟨rfl, rfl⟩

/-- `TTL` from the deadline on, whether the key is still there or not. -/
theorem replied_ttl_expired (hremains : Remains t o key s.dict) (hle : deadline ≤ t.toInt)
    (hfits : LLONG_MIN ≤ deadline - t.toInt) :
    Replied libc t s [ascii "TTL", key] (.integer (-2)) := by
  have ho : o.expired t = true := (expired_of_deadline hne hdeadline).mpr hle
  rw [Replied, dispatchCommand_ttl]
  obtain hget | ⟨hget, -⟩ := hremains.get
  · rw [exec_cmdTtl_expired (lt_irrefl 2) hget ho (by rwa [hdeadline])]
    exact ⟨rfl, rfl⟩
  · rw [exec_cmdTtl_missing (lt_irrefl 2) hget]
    exact ⟨rfl, rfl⟩

/-- **The promise is kept** where the arithmetic does not overflow. -/
theorem holdsUntil_of_fits (hd : d.WF) (hget : dictGet d key = some o)
    (hfits : TtlFits deadline t) : HoldsUntil libc deadline key t d := by
  intro s hrun
  have hremains : Remains t o key s.dict := hrun.remains hd hget
  constructor
  · intro hlt
    have ho : o.expired t = false := by
      rw [← Bool.not_eq_true, expired_of_deadline hne hdeadline]
      exact not_le.mpr hlt
    -- so the run has left it where it was
    have hlive := hremains.live_eq_some ho
    refine ⟨by rw [hlive]; rfl, ?_⟩
    exact replied_ttl_live hne hdeadline (live_eq_some_iff.mp hlive).1 hlt (hfits.1 hlt)
  · intro hle
    have hlive := hremains.live_eq_none ((expired_of_deadline hne hdeadline).mpr hle)
    exact ⟨hlive, replied_ttl_expired hne hdeadline hremains hle (hfits.2 hle),
      replied_get_missing hremains.wf hlive⟩

/-- **The promise is broken** where it does. -/
theorem fits_of_holdsUntil (hget : dictGet s.dict key = some o) (hhigh : deadline ≤ LLONG_MAX)
    (ht : 0 < t.toInt) (h : HoldsUntil libc deadline key t s.dict) : TtlFits deadline t := by
  obtain ⟨hbefore, hafter⟩ := h s .refl
  constructor
  · intro hlt
    by_contra hover
    -- the rounding overflows
    have hsub : o.expireAtMs.toInt - t.toInt ≤ LLONG_MAX := by omega
    obtain ⟨-, hreturned, -⟩ := hbefore hlt
    rw [dispatchCommand_ttl, exec_cmdTtl_live (lt_irrefl 2) hget hne (by omega) hsub, hdeadline,
      int64_of_not_fits fun hfits => hover hfits.2] at hreturned
    cases hreturned
  · intro hle
    by_contra hover
    -- the subtraction overflows
    have ho : o.expired t = true := (expired_of_deadline hne hdeadline).mpr hle
    obtain ⟨-, ⟨hreturned, -⟩, -⟩ := hafter hle
    rw [dispatchCommand_ttl,
      exec_cmdTtl_overflow (lt_irrefl 2) hget ho (by rwa [hdeadline])] at hreturned
    cases hreturned

end Promise

/-- A deadline of 0 is none: the key lives on. -/
theorem not_holdsUntil_zero (hget : dictGet s.dict key = some o) (hzero : o.expireAtMs = 0)
    (ht : 0 < t.toInt) : ¬HoldsUntil libc 0 key t s.dict := by
  intro h
  have hlive : live t s.dict key = some o :=
    live_eq_some_iff.mpr ⟨hget, by simp [Obj.expired, hzero]⟩
  have hnone := ((h s .refl).2 ht.le).1
  rw [hlive] at hnone
  cases hnone

/-- **The deadline that `EXPIRE` sets.** After an `EXPIRE` of a live key that replies 1, in every
run without another command on the key, the key lives and dies at a time `t` as the deadline says
if and only if the deadline is not 0 and the arithmetic of `TTL` does not overflow at this time. -/
theorem expire_deadline_iff (hs : Reachable libc s.dict) {t₀ : Int64} (ht₀ : 0 < t₀.toInt)
    {name : Bytes} {rest : List Bytes} (hc : findCommand name = some .EXPIRE) {secs : Int}
    (hsecs : stoll (arg (name :: rest) 2) = .ok secs)
    (hlive : live t₀ s.dict (arg (name :: rest) 1) = some o)
    (hreply : Replied libc t₀ s (name :: rest) (.integer 1)) (ht : t₀.toInt ≤ t.toInt) :
    HoldsUntil libc (t₀.toInt + 1000 * secs) (arg (name :: rest) 1) t
        (exec (dispatchCommand libc t₀ (name :: rest)) s).2.dict ↔
      t₀.toInt + 1000 * secs ≠ 0 ∧ TtlFits (t₀.toInt + 1000 * secs) t := by
  obtain ⟨hlow, hhigh, hdict⟩ := expire_replied hc hsecs (live_eq_some_iff.mp hlive).1 hreply
  set deadline := t₀.toInt + 1000 * secs
  set s' := (exec (dispatchCommand libc t₀ (name :: rest)) s).2
  have hwf : s'.dict.WF := wf_dispatchCommand libc t₀ _ hs.wf
  obtain ⟨o', ho'⟩ : ∃ o' : Obj, o' = { o with expireAtMs := Int64.ofInt deadline } := ⟨_, rfl⟩
  have hget : dictGet s'.dict (arg (name :: rest) 1) = some o' := by
    rw [ho', hdict, dictGet_dictModify_self hs.wf, (live_eq_some_iff.mp hlive).1]
    rfl
  have hdeadline : o'.expireAtMs.toInt = deadline := by
    rw [ho']
    exact Int64.toInt_ofInt_of_le hlow (Int.lt_of_le_sub_one hhigh)
  have ht' : 0 < t.toInt := ht₀.trans_le ht
  by_cases hzero : deadline = 0
  · -- no deadline at all
    rw [hzero] at ho' ⊢
    have hnone : o'.expireAtMs = 0 := by
      rw [ho']
      rfl
    exact iff_of_false (not_holdsUntil_zero hget hnone ht') fun h => h.1 rfl
  · have hne : o'.expireAtMs ≠ 0 := by
      intro hbits
      rw [hbits] at hdeadline
      exact hzero hdeadline.symm
    constructor
    · intro h
      exact ⟨hzero, fits_of_holdsUntil hne hdeadline hget hhigh ht' h⟩
    · rintro ⟨-, hfits⟩
      exact holdsUntil_of_fits hne hdeadline hwf hget hfits

/-- `EXPIRE k 10` at 1500 ms: the promise is kept at 2000 ms, when the old deadline has passed. -/
theorem expire_tenSeconds :
    let args := [ascii "EXPIRE", ascii "k", ascii "10"]
    HoldsUntil Libc.plain (Int64.toInt 1500 + 1000 * 10) (ascii "k") 2000
      (exec (dispatchCommand Libc.plain 1500 args) oneSecondKey).2.dict := by
  intro args
  have hlive : live 1500 oneSecondKey.dict (ascii "k") = some ⟨.str (ascii "v"), 2000⟩ :=
    live_eq_some_iff.mpr ⟨get_oneSecondKey, by decide⟩
  have hsecs : stoll (arg args 2) = .ok 10 := rfl
  have hreply : Replied Libc.plain 1500 oneSecondKey args (.integer 1) := ⟨by decide, by decide⟩
  have hfits : TtlFits (Int64.toInt 1500 + 1000 * 10) 2000 := ⟨by decide, by decide⟩
  exact (expire_deadline_iff reachable_oneSecondKey (by decide) (by decide) hsecs hlive hreply
    (by decide)).mpr ⟨by decide, hfits⟩

/-- `EXPIRE k -1` at 1000 ms sets the deadline 0: at 5000 ms the key is still there, and `TTL` says
that it has no deadline. -/
theorem expire_zero :
    let args := [ascii "EXPIRE", ascii "k", ascii "-1"]
    let s' := (exec (dispatchCommand Libc.plain 1000 args) oneSecondKey).2
    Reachable Libc.plain oneSecondKey.dict ∧ findCommand (ascii "EXPIRE") = some .EXPIRE ∧
      stoll (arg args 2) = .ok (-1) ∧
      live 1000 oneSecondKey.dict (arg args 1) = some ⟨.str (ascii "v"), 2000⟩ ∧
      Replied Libc.plain 1000 oneSecondKey args (.integer 1) ∧
      Replied Libc.plain 5000 s' [ascii "TTL", ascii "k"] (.integer (-1)) ∧
      ¬HoldsUntil Libc.plain (Int64.toInt 1000 + 1000 * (-1)) (arg args 1) 5000 s'.dict := by
  intro args s'
  have hc : findCommand (ascii "EXPIRE") = some .EXPIRE := by decide
  have hsecs : stoll (arg args 2) = .ok (-1) := rfl
  have hreply : Replied Libc.plain 1000 oneSecondKey args (.integer 1) := ⟨by decide, by decide⟩
  have hnone : Replied Libc.plain 5000 s' [ascii "TTL", ascii "k"] (.integer (-1)) :=
    ⟨by decide, by decide⟩
  obtain ⟨-, -, hdict⟩ := expire_replied hc hsecs get_oneSecondKey hreply
  have hget : dictGet s'.dict (arg args 1) = some ⟨.str (ascii "v"), 0⟩ := by
    rw [hdict, dictGet_dictModify_self reachable_oneSecondKey.wf]
    exact congrArg (Option.map _) get_oneSecondKey
  exact ⟨reachable_oneSecondKey, hc, hsecs, live_eq_some_iff.mpr ⟨get_oneSecondKey, by decide⟩,
    hreply, hnone, not_holdsUntil_zero hget rfl (by decide)⟩

end Minired
