import Minired.Lib.Relational

/-!
# Programs that append to a log

A state is made up, by `mk`, of a log and of the rest. `Writes mk E P m` says of a program what
it writes: from any rest it ends in one way, whatever the log holds, and leaves the log with
some bytes more. If it returns, the value and what it wrote are as in `P`; if it throws, the
exception is in `E`.

The rules follow the way programs are put together, as in `Lib.Relational`: `Writes.bind`
puts what the two parts wrote one after the other, `Writes.forM` and `Writes.foldlM` are the
loops, `Writes.append` is the write itself, and `Writes.gets`, `Writes.modify` and
`Writes.modifyGet` are the accesses to the rest.
-/

namespace Appending

open Relational

variable {ε σ τ α β γ δ : Type}

/-- The end of a program that wrote `r`. -/
def Ends (E : ε → Prop) (P : α → List γ → Prop) : Except ε α → List γ → Prop
  | .ok a, r => P a r
  | .error e, _ => E e

/-- The program only appends to the log, and does the same whatever is in it. -/
def Writes (mk : τ → List γ → σ) (E : ε → Prop) (P : α → List γ → Prop)
    (m : ExceptT ε (StateM σ) α) : Prop :=
  ∀ t, ∃ res t' r, (∀ w, exec m (mk t w) = (res, mk t' (w ++ r))) ∧ Ends E P res r

namespace Writes

variable {mk : τ → List γ → σ} {E E' : ε → Prop} {P P' : α → List γ → Prop}
  {Q : β → List γ → Prop} {m : ExceptT ε (StateM σ) α}

/-- What is written may be said less exactly. -/
theorem mono (h : Writes mk E P m) (hE : ∀ e, E e → E' e) (hP : ∀ a r, P a r → P' a r) :
    Writes mk E' P' m := by
  intro t
  obtain ⟨res, t', r, hexec, hends⟩ := h t
  refine ⟨res, t', r, hexec, ?_⟩
  cases res with
  | ok a => exact hP a r hends
  | error e => exact hE e hends

/-- A value writes nothing. -/
theorem pure {a : α} (h : P a []) : Writes mk E P (pure a) := by
  refine fun t => ⟨.ok a, t, [], fun w => ?_, h⟩
  rw [exec_pure, List.append_nil]

/-- An exception writes nothing. -/
theorem throw {e : ε} (h : E e) : Writes mk E P (throw e : ExceptT ε (StateM σ) α) := by
  refine fun t => ⟨.error e, t, [], fun w => ?_, h⟩
  rw [exec_throw, List.append_nil]

/-- One after the other. -/
theorem bind {f : α → ExceptT ε (StateM σ) β} (h : Writes mk E P m)
    (hf : ∀ a r, P a r → Writes mk E (fun b r' => Q b (r ++ r')) (f a)) :
    Writes mk E Q (m >>= f) := by
  intro t
  obtain ⟨res, t', r, hexec, hends⟩ := h t
  cases res with
  | error e =>
    refine ⟨.error e, t', r, fun w => ?_, hends⟩
    rw [exec_bind, hexec]
  | ok a =>
    obtain ⟨res', t'', r', hexec', hends'⟩ := hf a r hends t'
    refine ⟨res', t'', r ++ r', fun w => ?_, ?_⟩
    · rw [exec_bind, hexec, ← List.append_assoc]
      exact hexec' (w ++ r)
    · cases res' with
      | ok b => exact hends'
      | error e => exact hends'

/-- First a program that writes nothing. -/
theorem bind_silent {f : α → ExceptT ε (StateM σ) β} (h : Writes mk E (fun _ r => r = []) m)
    (hf : ∀ a, Writes mk E Q (f a)) : Writes mk E Q (m >>= f) := by
  refine h.bind fun a r hr => ?_
  subst hr
  exact hf a

/-- Then a program that writes nothing. -/
theorem then_silent {f : α → ExceptT ε (StateM σ) β} {R : List γ → Prop}
    (h : Writes mk E (fun _ r => R r) m) (hf : ∀ a, Writes mk E (fun _ r => r = []) (f a)) :
    Writes mk E (fun _ r => R r) (m >>= f) := by
  refine h.bind fun a r hr => (hf a).mono (fun _ he => he) fun b r' hr' => ?_
  rwa [hr', List.append_nil]

/-- Either branch. -/
theorem cond {b : Prop} [Decidable b] {n : ExceptT ε (StateM σ) α} (hm : Writes mk E P m)
    (hn : Writes mk E P n) : Writes mk E P (if b then m else n) := by
  split
  · exact hm
  · exact hn

/-- The write. -/
theorem append {f : σ → σ} {data : List γ} (h : ∀ t w, f (mk t w) = mk t (w ++ data)) :
    Writes mk E (fun _ r => r = data) (modify f : ExceptT ε (StateM σ) PUnit) :=
  fun t => ⟨.ok ⟨⟩, t, data, fun w => congrArg (Prod.mk (Except.ok PUnit.unit)) (h t w), rfl⟩

/-- A look at the rest. -/
theorem get_bind {f : σ → ExceptT ε (StateM σ) α} {g : τ → ExceptT ε (StateM σ) α}
    (hf : ∀ t w, f (mk t w) = g t) (hg : ∀ t, Writes mk E P (g t)) :
    Writes mk E P (get >>= f) := by
  intro t
  obtain ⟨res, t', r, hexec, hends⟩ := hg t t
  refine ⟨res, t', r, fun w => ?_, hends⟩
  rw [exec_bind, exec_get]
  exact (congrArg (fun m => exec m (mk t w)) (hf t w)).trans (hexec w)

/-- An update of the other part of the state writes nothing. -/
theorem modify {f : σ → σ} {g : τ → τ} (h : ∀ t w, f (mk t w) = mk (g t) w) :
    Writes mk E (fun _ r => r = []) (modify f : ExceptT ε (StateM σ) PUnit) := by
  refine fun t => ⟨.ok ⟨⟩, g t, [], fun w => ?_, rfl⟩
  rw [List.append_nil]
  exact congrArg (Prod.mk (Except.ok PUnit.unit)) (h t w)

/-- Nor does one with an answer. -/
theorem modifyGet {f : σ → α × σ} {a : τ → α} {g : τ → τ}
    (h : ∀ t w, f (mk t w) = (a t, mk (g t) w)) :
    Writes mk E (fun _ r => r = []) (modifyGet f : ExceptT ε (StateM σ) α) := by
  refine fun t => ⟨.ok (a t), g t, [], fun w => ?_, rfl⟩
  rw [List.append_nil]
  exact congrArg (fun p : α × σ => (Except.ok p.1, p.2)) (h t w)

/-- A loop with an accumulator, whose iterations write nothing. -/
theorem foldlM {f : δ → β → ExceptT ε (StateM σ) δ}
    (hf : ∀ d b, Writes mk E (fun _ r => r = []) (f d b)) (bs : List β) (d : δ) :
    Writes mk E (fun _ r => r = []) (bs.foldlM f d) := by
  induction bs generalizing d with
  | nil => exact pure rfl
  | cons b bs ih =>
    rw [List.foldlM_cons]
    exact (hf d b).bind_silent ih

/-- A loop whose iterations write one piece each. -/
theorem forM {f : β → ExceptT ε (StateM σ) PUnit} {g : β → List γ}
    (hf : ∀ b, Writes mk E (fun _ r => r = g b) (f b)) (bs : List β) :
    Writes mk E (fun _ r => r = bs.flatMap g) (bs.forM f) := by
  induction bs with
  | nil => exact pure rfl
  | cons b bs ih =>
    show Writes mk E _ (f b >>= fun _ => bs.forM f)
    refine (hf b).bind fun _ r hr => ih.mono (fun _ he => he) fun _ r' hr' => ?_
    rw [hr, hr', List.flatMap_cons]

end Writes

end Appending
