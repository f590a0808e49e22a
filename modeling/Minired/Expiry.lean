import Minired.Object
import Minired.DictMap

/-!
# Expiry

`expiry.cpp` removes keys whose deadline has passed: `check_expiry` one key, at the request
of a handler, and a pass of `sweep_loop` those among the first twenty keys with a deadline
that `dict_each` comes to. The clock is read once a command and once a pass; it is the
argument `now`.

`live now d` is the database as the handlers that call `check_expiry` see it. `Sync now d e`
relates two databases that look the same to them: they hold the same keys and values, except
that keys of `d` whose deadline has passed may be gone from `e`. `SyncAt` says in addition
that they agree on one key, and this is what `check_expiry` of that key brings about.
-/

namespace Minired

/-- `check_expiry`. -/
def checkExpiry (now : Int64) (d : Dict Obj) (key : Bytes) : Dict Obj × Bool :=
  match dictGet d key with
  | none => (d, false)
  | some obj =>
    if obj.expireAtMs = 0 then (d, false)
    else if now.toInt < obj.expireAtMs.toInt then (d, false)
    else ((dictDel d key).1, true)

/-- `sweep_cb`, on the keys collected so far; `count` is their number. -/
def sweepCb (max : ℕ) (keys : List Bytes) (key : Bytes) (val : Obj) : List Bytes × Bool :=
  if keys.length ≥ max then (keys, false)
  else if val.expireAtMs ≠ 0 then (keys ++ [key], true)
  else (keys, true)

/-- One round of `sweep_loop`. -/
def sweepPass (now : Int64) (d : Dict Obj) : Dict Obj :=
  (dictEach d (sweepCb 20) []).foldl (fun d key => (checkExpiry now d key).1) d

/-- The unexpired keys, with their values and deadlines. -/
def live (now : Int64) (d : Dict Obj) (key : Bytes) : Option Obj :=
  (dictGet d key).filter fun obj => !obj.expired now

/-! ### What `check_expiry` does -/

/-- An object has expired if it has a deadline that is not to come. -/
theorem Obj.expired_iff {now : Int64} {o : Obj} :
    o.expired now = true ↔ o.expireAtMs ≠ 0 ∧ o.expireAtMs.toInt ≤ now.toInt := by
  rw [Obj.expired, Bool.and_eq_true, Bool.not_eq_true', decide_eq_true_eq,
    decide_eq_false_iff_not, not_lt]

/-- A live key holds an object that has not expired. -/
theorem live_eq_some_iff {now : Int64} {d : Dict Obj} {key : Bytes} {o : Obj} :
    live now d key = some o ↔ dictGet d key = some o ∧ o.expired now = false := by
  rw [live, Option.filter_eq_some_iff, Bool.not_eq_true']

/-- What has expired stays expired. -/
theorem Obj.expired_mono {now later : Int64} (h : now.toInt ≤ later.toInt) {o : Obj}
    (ho : o.expired now = true) : o.expired later = true := by
  rw [Obj.expired_iff] at ho ⊢
  exact ⟨ho.1, ho.2.trans h⟩

/-- `check_expiry` removes an expired key. -/
theorem checkExpiry_of_expired {now : Int64} {d : Dict Obj} {key : Bytes} {o : Obj}
    (hget : dictGet d key = some o) (ho : o.expired now = true) :
    checkExpiry now d key = ((dictDel d key).1, true) := by
  obtain ⟨hne, hle⟩ := Obj.expired_iff.mp ho
  simp only [checkExpiry, hget, if_neg hne, if_neg (not_lt.mpr hle)]

/-- `check_expiry` leaves the database alone when the key is missing or unexpired. -/
theorem checkExpiry_of_not_expired {now : Int64} {d : Dict Obj} {key : Bytes}
    (h : ∀ o, dictGet d key = some o → o.expired now = false) :
    checkExpiry now d key = (d, false) := by
  cases hget : dictGet d key with
  | none => simp only [checkExpiry, hget]
  | some o =>
    have ho := h o hget
    by_cases hne : o.expireAtMs = 0
    · simp only [checkExpiry, hget, if_pos hne]
    · -- there is a deadline, and it is still to come
      have hlt : now.toInt < o.expireAtMs.toInt := by
        by_contra hle
        rw [Obj.expired_iff.mpr ⟨hne, not_lt.mp hle⟩] at ho
        exact absurd ho (by decide)
      simp only [checkExpiry, hget, if_neg hne, if_pos hlt]

/-- A check keeps the table well formed. -/
theorem wf_checkExpiry {d : Dict Obj} (hd : d.WF) (now : Int64) (key : Bytes) :
    (checkExpiry now d key).1.WF := by
  rw [checkExpiry]
  cases dictGet d key with
  | none => exact hd
  | some o =>
    dsimp only
    split_ifs
    · exact hd
    · exact hd
    · exact wf_dictDel hd key

/-- Under `check_expiry` the key has what is live of it; the others keep what they have. -/
theorem dictGet_checkExpiry {d : Dict Obj} (hd : d.WF) (now : Int64) (key : Bytes) :
    dictGet (checkExpiry now d key).1 = Function.update (dictGet d) key (live now d key) := by
  by_cases h : ∃ o, dictGet d key = some o ∧ o.expired now = true
  · obtain ⟨o, hget, ho⟩ := h
    have hlive : live now d key = none := by simp [live, hget, ho]
    rw [checkExpiry_of_expired hget ho, dictGet_dictDel hd, hlive]
  · push Not at h
    have hlive : live now d key = dictGet d key := by
      cases hget : dictGet d key with
      | none => simp [live, hget]
      | some o => simp [live, hget, h o hget]
    rw [checkExpiry_of_not_expired fun o ho => by simpa using h o ho, hlive,
      Function.update_eq_self]

/-! ### Databases that look the same -/

/-- The second database is the first without some of its expired keys. -/
structure Sync (now : Int64) (d e : Dict Obj) : Prop where
  left : d.WF
  right : e.WF
  get : ∀ key, dictGet e key = dictGet d key ∨
    dictGet e key = none ∧ ∃ o, dictGet d key = some o ∧ o.expired now = true

/-- They agree on the key, too. -/
structure SyncAt (now : Int64) (key : Bytes) (d e : Dict Obj) : Prop extends Sync now d e where
  same : dictGet e key = dictGet d key

variable {now later : Int64} {d e : Dict Obj}

namespace Sync

/-- Nothing is gone. -/
theorem refl (now : Int64) (hd : d.WF) : Sync now d d := ⟨hd, hd, fun _ => Or.inl rfl⟩

/-- Time only adds expired keys. -/
theorem mono (h : Sync now d e) (hle : now.toInt ≤ later.toInt) : Sync later d e := by
  refine ⟨h.left, h.right, fun key => (h.get key).imp_right ?_⟩
  rintro ⟨hnone, o, hget, ho⟩
  exact ⟨hnone, o, hget, Obj.expired_mono hle ho⟩

/-- The same keys are live, with the same values. -/
theorem live_eq (h : Sync now d e) : live now d = live now e := by
  funext key
  rcases h.get key with heq | ⟨hnone, o, hget, ho⟩
  · rw [live, live, heq]
  · simp [live, hnone, hget, ho]

/-- A database from which one expired key is deleted. -/
theorem of_dictDel (hd : d.WF) {key : Bytes} {o : Obj} (hget : dictGet d key = some o)
    (ho : o.expired now = true) : Sync now d (dictDel d key).1 := by
  refine ⟨hd, wf_dictDel hd key, fun k => ?_⟩
  rw [dictGet_dictDel hd]
  by_cases hk : k = key
  · subst hk
    exact Or.inr ⟨Function.update_self .., o, hget, ho⟩
  · exact Or.inl (Function.update_of_ne hk ..)

/-- Both sides change what one key has, to the same. -/
theorem update (h : Sync now d e) {d' e' : Dict Obj} (hd : d'.WF) (he : e'.WF) {key : Bytes}
    {v : Option Obj} (hdget : dictGet d' = Function.update (dictGet d) key v)
    (heget : dictGet e' = Function.update (dictGet e) key v) : SyncAt now key d' e' := by
  refine ⟨⟨hd, he, fun k => ?_⟩, ?_⟩
  · rw [hdget, heget]
    by_cases hk : k = key
    · subst hk
      rw [Function.update_self, Function.update_self]
      exact Or.inl rfl
    · rw [Function.update_of_ne hk, Function.update_of_ne hk]
      exact h.get k
  · rw [hdget, heget, Function.update_self, Function.update_self]

/-- **The lazy check** of a key makes the databases agree on it. -/
theorem check (h : Sync now d e) (key : Bytes) :
    SyncAt now key (checkExpiry now d key).1 (checkExpiry now e key).1 :=
  h.update (wf_checkExpiry h.left now key) (wf_checkExpiry h.right now key)
    (dictGet_checkExpiry h.left now key)
    (h.live_eq ▸ dictGet_checkExpiry h.right now key)

/-- Both sides set a key. -/
theorem set (h : Sync now d e) (key : Bytes) (obj : Obj) :
    SyncAt now key (dictSet d key obj) (dictSet e key obj) :=
  h.update (wf_dictSet h.left key obj) (wf_dictSet h.right key obj)
    (dictGet_dictSet h.left key obj) (dictGet_dictSet h.right key obj)

/-- A check on one side alone is not seen on the other. -/
theorem check_right (h : Sync now d e) (key : Bytes) : Sync now d (checkExpiry now e key).1 := by
  refine ⟨h.left, wf_checkExpiry h.right now key, fun k => ?_⟩
  rw [dictGet_checkExpiry h.right]
  by_cases hk : k = key
  · subst hk
    rw [Function.update_self]
    rcases h.get k with heq | ⟨hnone, hexp⟩
    · -- what the check removes has expired on the other side, too
      cases hget : dictGet d k with
      | none => simp [live, heq, hget]
      | some o => cases ho : o.expired now <;> simp [live, heq, hget, ho]
    · exact Or.inr ⟨by simp [live, hnone], hexp⟩
  · rw [Function.update_of_ne hk]
    exact h.get k

/-- A key that one side has lost may be deleted on the other. -/
theorem del_left (h : Sync now d e) {key : Bytes} (hnone : dictGet e key = none) :
    Sync now (dictDel d key).1 e := by
  refine ⟨wf_dictDel h.left key, h.right, fun k => ?_⟩
  rw [dictGet_dictDel h.left]
  by_cases hk : k = key
  · subst hk
    rw [Function.update_self]
    exact Or.inl hnone
  · rw [Function.update_of_ne hk]
    exact h.get k

/-- **The sweep** on one side alone is not seen on the other. -/
theorem sweep (h : Sync now d e) : Sync now d (sweepPass now e) := by
  -- whatever keys were collected, each of them is only checked
  suffices hfold : ∀ (keys : List Bytes) e, Sync now d e →
      Sync now d (keys.foldl (fun e key => (checkExpiry now e key).1) e) from hfold _ _ h
  intro keys
  induction keys with
  | nil => exact fun _ h => h
  | cons key keys ih => exact fun e h => ih _ (h.check_right key)

end Sync

namespace SyncAt

variable {key : Bytes}

/-- Both sides delete the key they agree on, and find it there or not. -/
theorem del (h : SyncAt now key d e) :
    SyncAt now key (dictDel d key).1 (dictDel e key).1 ∧ (dictDel d key).2 = (dictDel e key).2 := by
  refine ⟨h.update (wf_dictDel h.left key) (wf_dictDel h.right key)
    (dictGet_dictDel h.left key) (dictGet_dictDel h.right key), ?_⟩
  rw [(dictDel_spec h.left key).2.2, (dictDel_spec h.right key).2.2, h.same]

/-- Both sides write through the pointer to the value of the key they agree on. -/
theorem modify (h : SyncAt now key d e) (f : Obj → Obj) :
    SyncAt now key (dictModify d key f) (dictModify e key f) :=
  h.update (wf_dictModify h.left key f) (wf_dictModify h.right key f)
    (dictGet_dictModify h.left key f)
    (h.same ▸ dictGet_dictModify h.right key f)

end SyncAt

/-- So does a pass of the sweep. -/
theorem wf_sweepPass (hd : d.WF) (now : Int64) : (sweepPass now d).WF :=
  (Sync.refl now hd).sweep.right

end Minired
