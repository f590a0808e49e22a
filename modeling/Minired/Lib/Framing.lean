import Mathlib

/-!
# Framed messages in a byte stream

Messages are sent one after the other, each as its encoding, and the receiver sees the stream
cut at arbitrary places. It keeps the bytes that it has not used and parses them from the
front, anew whenever more have come.

* `Outcome` — what a parser says about the front of a buffer;
* `Frames` — the parser finds an encoded message whatever follows it, and waits in front of an
  incomplete one;
* `delivered` — the messages that lie wholly in the bytes received so far, and the bytes behind
  the last of them;
* `delivered_spec` — these make up the bytes received, and what is left is `Pending`: the
  beginning of the next message, or nothing when there is none.
-/

namespace Framing

variable {α β : Type*}

/-- A parser's answer: a message and the length of its frame, a request for more bytes, or a
refusal. -/
inductive Outcome (α : Type*)
  | message (a : α) (consumed : ℕ)
  | incomplete
  | malformed

/-- The parser takes the encodings of the messages in `ok` apart. -/
structure Frames (enc : α → List β) (parse : List β → Outcome α) (ok : α → Prop) : Prop where
  /-- A message at the front is found, whatever follows. -/
  whole : ∀ a, ok a → ∀ rest, parse (enc a ++ rest) = .message a (enc a).length
  /-- In front of a part of a message the parser waits. -/
  waits : ∀ a, ok a → ∀ p, p <+: enc a → p ≠ enc a → parse p = .incomplete

/-- The encodings of the messages, one after the other. -/
def stream (enc : α → List β) (as : List α) : List β := (as.map enc).flatten

@[simp] theorem stream_nil (enc : α → List β) : stream enc [] = [] := rfl

@[simp] theorem stream_cons (enc : α → List β) (a : α) (as : List α) :
    stream enc (a :: as) = enc a ++ stream enc as := rfl

/-- The frames of two lists stand one behind the other. -/
theorem stream_append (enc : α → List β) (as bs : List α) :
    stream enc (as ++ bs) = stream enc as ++ stream enc bs := by
  rw [stream, List.map_append, List.flatten_append]
  rfl

/-- Of the bytes `p` received for the messages: the messages that are wholly there, and the
bytes behind them. -/
def delivered (enc : α → List β) : List α → List β → List α × List β
  | [], p => ([], p)
  | a :: as, p =>
    if (enc a).length ≤ p.length then
      let r := delivered enc as (p.drop (enc a).length)
      (a :: r.1, r.2)
    else ([], p)

/-- Bytes that wait for more: the beginning of the next message, but not all of it. -/
def Pending (enc : α → List β) (more : List α) (r : List β) : Prop :=
  r = [] ∧ more = [] ∨ ∃ a as, more = a :: as ∧ r <+: enc a ∧ r ≠ enc a

variable {enc : α → List β}

/-- What has been received of the messages in front comes first. -/
theorem delivered_append (done more : List α) (r : List β) :
    delivered enc (done ++ more) (stream enc done ++ r) =
      (done ++ (delivered enc more r).1, (delivered enc more r).2) := by
  induction done with
  | nil => rfl
  | cons a done ih =>
    have hlen : (enc a).length ≤ (enc a ++ (stream enc done ++ r)).length := by
      rw [List.length_append]
      exact Nat.le_add_right _ _
    rw [List.cons_append, stream_cons, List.append_assoc, delivered, if_pos hlen,
      List.drop_left, ih]
    rfl

/-- Pending bytes deliver nothing. -/
theorem delivered_pending {more : List α} {r : List β} (h : Pending enc more r) :
    delivered enc more r = ([], r) := by
  rcases h with ⟨rfl, rfl⟩ | ⟨a, as, rfl, hpart, hne⟩
  · rfl
  · rw [delivered, if_neg fun hle => hne (hpart.eq_of_length_le hle)]

/-- A prefix of two parts ends in the second one, or within the first. -/
theorem prefix_append_cases {p a b : List β} (h : p <+: a ++ b) :
    (∃ q, p = a ++ q ∧ q <+: b) ∨ (p <+: a ∧ p ≠ a) := by
  by_cases ha : a <+: p
  · obtain ⟨q, rfl⟩ := ha
    exact Or.inl ⟨q, rfl, (List.prefix_append_right_inj a).mp h⟩
  · refine Or.inr ⟨?_, fun heq => ha (heq ▸ List.prefix_refl p)⟩
    exact (List.prefix_or_prefix_of_prefix h (List.prefix_append a b)).resolve_right ha

/-- Messages of which none is empty are no more than the bytes of their stream. -/
theorem length_le_stream (henc : ∀ a, 1 ≤ (enc a).length) (as : List α) :
    as.length ≤ (stream enc as).length := by
  induction as with
  | nil => exact le_rfl
  | cons a as ih =>
    have ha := henc a
    rw [stream_cons, List.length_append, List.length_cons]
    omega

/-- A message is no longer than the stream it is in. -/
theorem length_le_of_mem {a : α} {as : List α} (ha : a ∈ as) :
    (enc a).length ≤ (stream enc as).length := by
  obtain ⟨as₁, as₂, rfl⟩ := List.append_of_mem ha
  rw [stream_append, stream_cons, List.length_append, List.length_append]
  omega

/-- The whole stream delivers all the messages. -/
theorem delivered_stream (as : List α) : delivered enc as (stream enc as) = (as, []) := by
  have h : delivered enc (as ++ []) (stream enc as ++ []) = _ := delivered_append as [] []
  rwa [List.append_nil, List.append_nil, delivered, List.append_nil] at h

/-- **The bytes received**, when they begin the stream of the messages, are the messages
delivered and a pending rest. -/
theorem delivered_spec {as : List α} {p : List β} (hp : p <+: stream enc as) :
    ∃ more, as = (delivered enc as p).1 ++ more ∧
      p = stream enc (delivered enc as p).1 ++ (delivered enc as p).2 ∧
      Pending enc more (delivered enc as p).2 := by
  induction as generalizing p with
  | nil =>
    obtain rfl := List.prefix_nil.mp hp
    exact ⟨[], rfl, rfl, Or.inl ⟨rfl, rfl⟩⟩
  | cons a as ih =>
    rw [stream_cons] at hp
    rw [delivered]
    by_cases hlen : (enc a).length ≤ p.length
    · rw [if_pos hlen]
      -- the first message is all there: go on behind it
      obtain ⟨q, rfl⟩ := List.prefix_of_prefix_length_le (List.prefix_append _ _) hp hlen
      have hq : q <+: stream enc as := (List.prefix_append_right_inj _).mp hp
      obtain ⟨more, has, hsplit, hpending⟩ := ih hq
      rw [List.drop_left]
      refine ⟨more, congrArg (a :: ·) has, ?_, hpending⟩
      rw [stream_cons, List.append_assoc, ← hsplit]
    · rw [if_neg hlen]
      -- what there is begins the first message, and all of it is pending
      have hshort : p <+: enc a :=
        List.prefix_of_prefix_length_le hp (List.prefix_append _ _) (Nat.le_of_not_le hlen)
      refine ⟨a :: as, rfl, rfl, Or.inr ⟨a, as, rfl, hshort, ?_⟩⟩
      rintro rfl
      exact hlen le_rfl

/-- In front of pending bytes the parser waits, or there are none. -/
theorem Frames.waits_pending {parse : List β → Outcome α} {ok : α → Prop}
    (h : Frames enc parse ok) {more : List α} (hok : ∀ a ∈ more, ok a) {r : List β}
    (hr : Pending enc more r) : r = [] ∨ parse r = .incomplete := by
  rcases hr with ⟨rfl, -⟩ | ⟨a, as, rfl, hpart, hne⟩
  · exact Or.inl rfl
  · exact Or.inr (h.waits a (hok a List.mem_cons_self) r hpart hne)

end Framing
