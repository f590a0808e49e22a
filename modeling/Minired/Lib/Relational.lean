import Mathlib

/-!
# Relational rules for programs with state and exceptions

Programs are computations in `ExceptT ε (StateM σ)`; a program that throws keeps the state
it had built up. `exec` runs one from a state.

`Sim P m m' Q` says that the two programs simulate each other: from states related by `P`
they end with the same result, or the same exception, in states related by `Q`. The rules
follow the way programs are put together: `Sim.bind`, `Sim.cond`, the loops `Sim.foldlM`
and `Sim.forM`, and the accesses to the state `Sim.gets`, `Sim.modify` and `Sim.modifyGet`.

`Keeps P m` is the same for one program and one state: an invariant, with rules of its own.
-/

namespace Relational

variable {ε σ τ α β : Type}

/-- The result, or the exception, and the last state. -/
def exec (m : ExceptT ε (StateM σ) α) (s : σ) : Except ε α × σ := m.run.run s

/-- A value is returned. -/
@[simp] theorem exec_pure (a : α) (s : σ) :
    exec (pure a : ExceptT ε (StateM σ) α) s = (.ok a, s) := rfl

/-- An exception ends the program. -/
@[simp] theorem exec_throw (e : ε) (s : σ) :
    exec (throw e : ExceptT ε (StateM σ) α) s = (.error e, s) := rfl

/-- The state is read. -/
@[simp] theorem exec_get (s : σ) :
    exec (get : ExceptT ε (StateM σ) σ) s = (.ok s, s) := rfl

/-- Running one program after another. -/
theorem exec_bind (m : ExceptT ε (StateM σ) α) (f : α → ExceptT ε (StateM σ) β) (s : σ) :
    exec (m >>= f) s =
      match exec m s with
      | (.ok a, s') => exec (f a) s'
      | (.error e, s') => (.error e, s') := by
  show (ExceptT.bindCont f (m.run.run s).1).run (m.run.run s).2 = _
  rcases h : m.run.run s with ⟨_ | _, s'⟩ <;> simp only [exec, h] <;> rfl

/-- When the first program returns, the second goes on from its state. -/
theorem exec_bind_ok {m : ExceptT ε (StateM σ) α} {f : α → ExceptT ε (StateM σ) β} {s s' : σ}
    {a : α} (h : exec m s = (.ok a, s')) : exec (m >>= f) s = exec (f a) s' := by
  rw [exec_bind, h]

/-- From `P`-related states, the same outcome in `Q`-related states. -/
def Sim (P : σ → τ → Prop) (m : ExceptT ε (StateM σ) α) (m' : ExceptT ε (StateM τ) α)
    (Q : σ → τ → Prop) : Prop :=
  ∀ s t, P s t → (exec m s).1 = (exec m' t).1 ∧ Q (exec m s).2 (exec m' t).2

namespace Sim

variable {P P' Q Q' : σ → τ → Prop} {m : ExceptT ε (StateM σ) α} {m' : ExceptT ε (StateM τ) α}

/-- A relation that is stronger in front and weaker behind. -/
theorem weaken (h : Sim P m m' Q) (hP : ∀ s t, P' s t → P s t) (hQ : ∀ s t, Q s t → Q' s t) :
    Sim P' m m' Q' := by
  intro s t hst
  obtain ⟨hres, hrel⟩ := h s t (hP s t hst)
  exact ⟨hres, hQ _ _ hrel⟩

/-- Values on both sides. -/
theorem pure (a : α) : Sim (ε := ε) P (pure a) (pure a) P := fun _ _ h => ⟨rfl, h⟩

/-- The same exception on both sides. -/
theorem throw (e : ε) : Sim P (throw e : ExceptT ε (StateM σ) α) (throw e) P :=
  fun _ _ h => ⟨rfl, h⟩

/-- One after the other, when the second keeps what the first may end in by throwing. -/
theorem bind {f : α → ExceptT ε (StateM σ) β} {f' : α → ExceptT ε (StateM τ) β}
    {R : σ → τ → Prop} (h : Sim P m m' R) (hf : ∀ a, Sim R (f a) (f' a) Q)
    (hthrow : ∀ s t, R s t → Q s t) : Sim P (m >>= f) (m' >>= f') Q := by
  intro s t hst
  obtain ⟨hres, hrel⟩ := h s t hst
  rw [exec_bind, exec_bind]
  revert hres hrel
  rcases exec m s with ⟨_ | a, s'⟩ <;> rcases exec m' t with ⟨_ | a', t'⟩ <;> intro hres hrel
  · exact ⟨congrArg Except.error (Except.error.inj hres), hthrow _ _ hrel⟩
  · exact absurd hres (by simp)
  · exact absurd hres (by simp)
  · obtain rfl := Except.ok.inj hres
    exact hf a s' t' hrel

/-- What is read alike on both sides. -/
theorem gets {f : σ → α} {f' : τ → α} (h : ∀ s t, P s t → f s = f' t) :
    Sim (ε := ε) P (do return f (← get)) (do return f' (← get)) P := by
  intro s t hst
  have hval := h s t hst
  rw [exec_bind, exec_bind, exec_get, exec_get]
  exact ⟨congrArg Except.ok hval, hst⟩

/-- Updates that lead from one relation to the other. -/
theorem modify {f : σ → σ} {f' : τ → τ} (h : ∀ s t, P s t → Q (f s) (f' t)) :
    Sim (ε := ε) P (modify f) (modify f') Q := fun s t hst => ⟨rfl, h s t hst⟩

/-- Updates that answer alike. -/
theorem modifyGet {f : σ → α × σ} {f' : τ → α × τ}
    (h : ∀ s t, P s t → (f s).1 = (f' t).1 ∧ Q (f s).2 (f' t).2) :
    Sim (ε := ε) P (modifyGet f) (modifyGet f') Q :=
  fun s t hst => ⟨congrArg Except.ok (h s t hst).1, (h s t hst).2⟩

/-- Branches of one condition on both sides. -/
theorem cond {b : Prop} [Decidable b] {n : ExceptT ε (StateM σ) α}
    {n' : ExceptT ε (StateM τ) α} (ht : b → Sim P m m' Q) (hf : ¬b → Sim P n n' Q) :
    Sim P (if b then m else n) (if b then m' else n') Q := by
  by_cases hb : b
  · rw [if_pos hb, if_pos hb]
    exact ht hb
  · rw [if_neg hb, if_neg hb]
    exact hf hb

/-- A loop with an accumulator. -/
theorem foldlM {f : α → β → ExceptT ε (StateM σ) α} {f' : α → β → ExceptT ε (StateM τ) α}
    (bs : List β) (hf : ∀ a, ∀ b ∈ bs, Sim P (f a b) (f' a b) P) (a : α) :
    Sim P (bs.foldlM f a) (bs.foldlM f' a) P := by
  induction bs generalizing a with
  | nil => exact pure a
  | cons b bs ih =>
    rw [List.foldlM_cons, List.foldlM_cons]
    exact (hf a b List.mem_cons_self).bind
      (fun a' => ih (fun a b hb => hf a b (List.mem_cons_of_mem _ hb)) a') fun _ _ h => h

/-- A loop without one. -/
theorem forM {f : β → ExceptT ε (StateM σ) PUnit} {f' : β → ExceptT ε (StateM τ) PUnit}
    (bs : List β) (hf : ∀ b ∈ bs, Sim P (f b) (f' b) P) :
    Sim P (bs.forM f) (bs.forM f') P := by
  induction bs with
  | nil => exact pure _
  | cons b bs ih =>
    show Sim P (f b >>= fun _ => bs.forM f) (f' b >>= fun _ => bs.forM f') P
    exact (hf b List.mem_cons_self).bind
      (fun _ => ih fun b hb => hf b (List.mem_cons_of_mem _ hb)) fun _ _ h => h

/-- The program itself, for an invariant on both sides. -/
theorem invariant {m : ExceptT ε (StateM σ) α} {R : σ → σ → Prop} (h : Sim R m m R) {s : σ}
    (hs : R s s) : R (exec m s).2 (exec m s).2 := (h s s hs).2

end Sim

/-- The program keeps `P`, also when it throws. -/
def Keeps (P : σ → Prop) (m : ExceptT ε (StateM σ) α) : Prop := ∀ s, P s → P (exec m s).2

namespace Keeps

variable {P : σ → Prop} {m : ExceptT ε (StateM σ) α}

/-- A value keeps what holds. -/
theorem pure (a : α) : Keeps (ε := ε) P (pure a) := fun _ h => h

/-- So does an exception. -/
theorem throw (e : ε) : Keeps P (throw e : ExceptT ε (StateM σ) α) := fun _ h => h

/-- So does reading the state. -/
theorem get : Keeps (ε := ε) P get := fun _ h => h

/-- An update does if it does state by state. -/
theorem modify {f : σ → σ} (h : ∀ s, P s → P (f s)) : Keeps (ε := ε) P (modify f) :=
  fun s hs => h s hs

/-- So does one with an answer. -/
theorem modifyGet {f : σ → α × σ} (h : ∀ s, P s → P (f s).2) :
    Keeps (ε := ε) P (modifyGet f) := fun s hs => h s hs

/-- Programs one after the other. -/
theorem bind {f : α → ExceptT ε (StateM σ) β} (h : Keeps P m) (hf : ∀ a, Keeps P (f a)) :
    Keeps P (m >>= f) := by
  intro s hs
  have hmid := h s hs
  rw [exec_bind]
  rcases hm : exec m s with ⟨_ | a, s'⟩
  · rwa [hm] at hmid
  · rw [hm] at hmid
    exact hf a s' hmid

/-- Branches that both do. -/
theorem cond {b : Prop} [Decidable b] {n : ExceptT ε (StateM σ) α} (hm : Keeps P m)
    (hn : Keeps P n) : Keeps P (if b then m else n) := by
  split
  · exact hm
  · exact hn

/-- A loop with an accumulator. -/
theorem foldlM {f : α → β → ExceptT ε (StateM σ) α} (hf : ∀ a b, Keeps P (f a b)) (bs : List β)
    (a : α) : Keeps P (bs.foldlM f a) := by
  induction bs generalizing a with
  | nil => exact pure a
  | cons b bs ih =>
    rw [List.foldlM_cons]
    exact (hf a b).bind ih

/-- A loop without one. -/
theorem forM {f : β → ExceptT ε (StateM σ) PUnit} (hf : ∀ b, Keeps P (f b)) (bs : List β) :
    Keeps P (bs.forM f) := by
  induction bs with
  | nil => exact pure _
  | cons b bs ih =>
    show Keeps P (f b >>= fun _ => bs.forM f)
    exact (hf b).bind fun _ => ih

end Keeps

end Relational
