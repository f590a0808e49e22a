import Minired.Lib.Relational

/-!
# Triples for programs with state and exceptions

`Triple P m Q E` says of a program of `ExceptT ε (StateM σ)` that it leads from every state in
`P` to one in `Q`, if it returns, and to one in `E`, if it throws. What was done before an
exception stays done, so `E` is about the state, too.

There is one rule for each way in which programs are put together: `Triple.bind`, `Triple.cond`
and the loop `Triple.foldlM`, the change of the state `Triple.modify`, and `Triple.weaken`, the rule
of consequence. `Keeps.triple` makes a triple of an invariant.
-/

namespace Relational

variable {ε σ α β γ : Type}

/-- The end of a run meets `Q`, if it returned, and `E`, if it threw. -/
def Post (Q : α → σ → Prop) (E : ε → σ → Prop) : Except ε α × σ → Prop
  | (.ok a, s) => Q a s
  | (.error e, s) => E e s

/-- From a state in `P`, the program returns in `Q` or throws in `E`. -/
def Triple (P : σ → Prop) (m : ExceptT ε (StateM σ) α) (Q : α → σ → Prop) (E : ε → σ → Prop) :
    Prop := ∀ s, P s → Post Q E (exec m s)

/-- A weaker postcondition. -/
theorem Post.mono {Q Q' : α → σ → Prop} {E E' : ε → σ → Prop} {r : Except ε α × σ}
    (h : Post Q E r) (hQ : ∀ a s, Q a s → Q' a s) (hE : ∀ e s, E e s → E' e s) :
    Post Q' E' r := by
  rcases r with ⟨e | a, s⟩
  · exact hE e s h
  · exact hQ a s h

namespace Triple

variable {P P' : σ → Prop} {Q Q' : α → σ → Prop} {R : β → σ → Prop} {E E' : ε → σ → Prop}
  {m : ExceptT ε (StateM σ) α}

/-- **Consequence.** -/
theorem weaken (h : Triple P m Q E) (hP : ∀ s, P' s → P s) (hQ : ∀ a s, Q a s → Q' a s)
    (hE : ∀ e s, E e s → E' e s) : Triple P' m Q' E' :=
  fun s hs => (h s (hP s hs)).mono hQ hE

/-- **Sequence.** What the first program throws is what the whole throws. -/
theorem bind {f : α → ExceptT ε (StateM σ) β} (h : Triple P m Q E)
    (hf : ∀ a, Triple (Q a) (f a) R E) : Triple P (m >>= f) R E := by
  intro s hs
  have hmid := h s hs
  rw [exec_bind]
  rcases hm : exec m s with ⟨e | a, s'⟩
  · rw [hm] at hmid
    exact hmid
  · rw [hm] at hmid
    exact hf a s' hmid

/-- A branch, by its two sides. -/
theorem cond {b : Prop} [Decidable b] {n : ExceptT ε (StateM σ) α}
    (hm : b → Triple P m Q E) (hn : ¬b → Triple P n Q E) :
    Triple P (if b then m else n) Q E := by
  split
  case isTrue h => exact hm h
  case isFalse h => exact hn h

/-- A change of the state. -/
theorem modify {f : σ → σ} {Q : PUnit → σ → Prop} (h : ∀ s, P s → Q ⟨⟩ (f s)) :
    Triple P (modify f : ExceptT ε (StateM σ) PUnit) Q E := h

/-- **The loop.** Its invariant may speak of the accumulator. -/
theorem foldlM {I : α → σ → Prop} {f : α → β → ExceptT ε (StateM σ) α} (bs : List β)
    (hf : ∀ a, ∀ b ∈ bs, Triple (I a) (f a b) I E) (a : α) :
    Triple (I a) (bs.foldlM f a) I E := by
  induction bs generalizing a with
  | nil => exact fun _ hs => hs
  | cons b bs ih =>
    rw [List.foldlM_cons]
    exact (hf a b List.mem_cons_self).bind fun a' =>
      ih (fun a b hb => hf a b (List.mem_cons_of_mem _ hb)) a'

end Triple

/-- An invariant holds whichever way the program ends. -/
theorem Keeps.triple {P : σ → Prop} {m : ExceptT ε (StateM σ) α} (h : Keeps P m) :
    Triple P m (fun _ => P) fun _ => P := by
  intro s hs
  have hend := h s hs
  rcases hm : exec m s with ⟨e | a, s'⟩
  · rwa [hm] at hend
  · rwa [hm] at hend

/-- What holds of both ends of a program is an invariant. -/
theorem Triple.keeps {P : σ → Prop} {m : ExceptT ε (StateM σ) α}
    (h : Triple P m (fun _ => P) fun _ => P) : Keeps P m := by
  intro s hs
  have hend := h s hs
  rcases hm : exec m s with ⟨e | a, s'⟩
  · rwa [hm] at hend
  · rwa [hm] at hend

/-- A loop over a list keeps what its iterations over the elements keep. -/
theorem Keeps.foldlM_mem {P : σ → Prop} {f : α → β → ExceptT ε (StateM σ) α} (bs : List β)
    (hf : ∀ a, ∀ b ∈ bs, Keeps P (f a b)) (a : α) : Keeps P (bs.foldlM f a) :=
  (Triple.foldlM (I := fun _ => P) bs (fun a b hb => (hf a b hb).triple) a).keeps

end Relational
