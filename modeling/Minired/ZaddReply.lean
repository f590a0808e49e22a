import Minired.Enumerations
import Minired.FailedCommands
import Minired.ZSetAgree
import Minired.Increments

/-!
# What `ZADD` reports

The reply of `ZADD` is meant to be the number of members that were added, which is by how much
`ZCARD` grows. The loop of `cmd_zadd` counts the calls of `zset_add` that return true, and all of
them do: the reply is the number of pairs, also of those that only change the score of a member.

`ZaddReports` says that the reply is the number of new members and that `ZCARD` grows by it.
`ZCARD` counts the nodes of the skip list, so its growth is looked at insertion by insertion: an
insertion adds a node unless it takes out an old one of the same C string
(`length_buildZSet_eq_iff`). A call reports what it adds if and only if its members are different
from each other and from those present, and no insertion takes a node out (`zadd_reports_iff`).
-/

namespace Minired

open Chain Framing Relational

variable (libc : Libc) {now : Int64} {key : Bytes} {s : Session}

/-- The sorted set of a key, empty when nothing is live of it. -/
def liveZSet (now : Int64) (d : Dict Obj) (key : Bytes) : ZSet :=
  ((live now d key).bind fun o => o.value.zset?).getD zsetNew

/-- **The reference.** How many different members of the list are not in the sorted set. -/
def newMembers (z : ZSet) (members : List Bytes) : ℕ :=
  (members.dedup.filter fun m => (zsetScore libc z m).isNone).length

/-- The reply of `ZADD` is the number of new members, and `ZCARD` grows by it. -/
def ZaddReports (now : Int64) (s : Session) (key : Bytes) (pairs : List (Bytes × Bytes)) : Prop :=
  let args := ascii "ZADD" :: key :: pairArgs pairs
  let added := newMembers libc (liveZSet now s.dict key) (pairs.map Prod.snd)
  Replied libc now s args (.integer added) ∧
    ∃ before : ℕ, Replied libc now s [ascii "ZCARD", key] (.integer before) ∧
      Replied libc now (exec (dispatchCommand libc now args) s).2 [ascii "ZCARD", key]
        (.integer (before + added : ℕ))

/-- No insertion of the pairs, one after the other, takes a node out. -/
def NodesApart (z : ZSet) (coins : Coins) : List (Bytes × Double) → Prop
  | [] => True
  | (member, score) :: cs =>
    ¬z.sl.Replaces member ∧
      NodesApart (zsetAdd libc z member score coins).1 (zsetAdd libc z member score coins).2 cs

/-! ### The number of nodes -/

variable {libc}

/-- An addition of a member that the table does not have takes out what its insertion does. -/
theorem takesOut_iff_of_absent {z : ZSet} {member : Bytes} (h : zsetScore libc z member = none) :
    z.TakesOut libc member ↔ z.sl.Replaces member := by
  refine or_iff_right ?_
  rintro ⟨old, hold, -⟩
  cases hold.symm.trans h

/-- New members are kept apart if and only if no addition takes a node out. -/
theorem nodesApart_iff (cs : List (Bytes × Double)) {z : ZSet} (hz : z.ht.WF) (coins : Coins)
    (hnodup : (cs.map Prod.fst).Nodup) (habsent : ∀ c ∈ cs, zsetScore libc z c.1 = none) :
    NodesApart libc z coins cs ↔ NoneTakenOut libc z coins cs := by
  induction cs generalizing z coins with
  | nil => exact Iff.rfl
  | cons c cs ih =>
    obtain ⟨hnew, hnodup⟩ := List.nodup_cons.mp hnodup
    have hhead := takesOut_iff_of_absent (habsent c List.mem_cons_self)
    -- the other members are new to the table still
    have habsent' : ∀ d ∈ cs, zsetScore libc (zsetAdd libc z c.1 c.2 coins).1 d.1 = none := by
      intro d hd
      have hne : d.1 ≠ c.1 := fun heq => hnew (heq ▸ List.mem_map_of_mem hd)
      show (dictGet (dictSet z.ht c.1 _) d.1).map libc.strtod = none
      rw [dictGet_dictSet hz, Function.update_of_ne hne]
      exact habsent d (List.mem_cons_of_mem c hd)
    have hrest := ih (wf_dictSet hz c.1 _) (zsetAdd libc z c.1 c.2 coins).2 hnodup habsent'
    rw [NodesApart, NoneTakenOut, hhead, ← hrest]

/-- **While the two indexes agree**, new members without NUL bytes are kept apart. -/
theorem ZSet.Agree.nodesApart {z : ZSet} (h : z.Agree libc) (hz : (Value.zset z).WF)
    (coins : Coins) {cs : List (Bytes × Double)} (hnul : ∀ c ∈ cs, NulFree c.1)
    (hnodup : (cs.map Prod.fst).Nodup) (habsent : ∀ c ∈ cs, zsetScore libc z c.1 = none) :
    NodesApart libc z coins cs := by
  obtain ⟨⟨C, hC⟩, hht⟩ := hz
  obtain ⟨⟨C', hreads, -, -, htable, -⟩, -⟩ := h
  obtain rfl := hC.reads.unique hreads
  have hcstr : (cs.map fun c => cstr c.1) = cs.map Prod.fst :=
    List.map_congr_left fun c hc => (hnul c hc).cstr_eq
  refine (nodesApart_iff cs hht coins hnodup habsent).mpr
    (noneTakenOut_of_cstr cs hC coins (hcstr.symm ▸ hnodup) fun c hc d hd heq => ?_)
  -- a node of the member would have its score in the table
  rw [(hnul d hd).cstr_eq] at heq
  obtain ⟨t, ht, -⟩ := htable d.1 c.2 (List.mem_map.mpr ⟨c, hc, congrArg (·, c.2) heq⟩)
  cases ht.symm.trans (habsent d hd)

/-! ### New members -/

variable (libc) in
/-- All members of the list are new if and only if they are different and absent. -/
theorem newMembers_eq_length_iff (z : ZSet) (members : List Bytes) :
    newMembers libc z members = members.length ↔
      members.Nodup ∧ ∀ m ∈ members, zsetScore libc z m = none := by
  have hsub : (members.dedup.filter fun m => (zsetScore libc z m).isNone).Sublist members :=
    List.filter_sublist.trans (List.dedup_sublist members)
  constructor
  · intro hlen
    have hall := hsub.eq_of_length hlen
    have hdedup : members.dedup = members :=
      (List.dedup_sublist members).eq_of_length_le
        ((congrArg List.length hall).symm.le.trans List.filter_sublist.length_le)
    refine ⟨List.dedup_eq_self.mp hdedup, fun m hm => ?_⟩
    rw [← hall, List.mem_filter] at hm
    exact Option.isNone_iff_eq_none.mp hm.2
  · rintro ⟨hnodup, habsent⟩
    rw [newMembers, hnodup.dedup, List.filter_eq_self.mpr fun m hm =>
      Option.isNone_iff_eq_none.mpr (habsent m hm)]

/-! ### One run of the command -/

variable (libc) in
/-- The scores of all pairs can be converted. -/
def ScoresParse (pairs : List (Bytes × Bytes)) : Prop := ∀ p ∈ pairs, ∃ x, libc.stod p.1 = .ok x

/-- The members that are added are those of the pairs. -/
theorem members_convertedPairs {pairs : List (Bytes × Bytes)} (hpairs : ScoresParse libc pairs) :
    (convertedPairs libc (pairArgs pairs)).map Prod.fst = pairs.map Prod.snd := by
  induction pairs with
  | nil => rfl
  | cons p pairs ih =>
    obtain ⟨x, hx⟩ := hpairs p List.mem_cons_self
    show (convertedPairs libc (p.1 :: p.2 :: pairArgs pairs)).map Prod.fst = _
    rw [convertedPairs, hx]
    exact congrArg (p.2 :: ·) (ih fun q hq => hpairs q (List.mem_cons_of_mem p hq))

/-- **The loop of `ZADD`** counts the pairs. It changes the database and flips coins. -/
theorem exec_zaddLoop {pairs : List (Bytes × Bytes)} (hpairs : ScoresParse libc pairs)
    (key : Bytes) (z : ZSet) (added : ℕ) (s : Session) :
    ∃ d coins, exec (zaddLoop libc key z added (pairArgs pairs)) s =
      (.ok (added + pairs.length), { s with dict := d, coins := coins }) := by
  induction pairs generalizing z added s with
  | nil => exact ⟨s.dict, s.coins, rfl⟩
  | cons p pairs ih =>
    obtain ⟨x, hx⟩ := hpairs p List.mem_cons_self
    obtain ⟨d, coins, hrest⟩ := ih (fun q hq => hpairs q (List.mem_cons_of_mem p hq))
      (zsetAdd libc z p.2 x s.coins).1 (added + 1)
      { s with
        dict := dictModify s.dict key (Obj.setValue (.zset (zsetAdd libc z p.2 x s.coins).1))
        coins := (zsetAdd libc z p.2 x s.coins).2 }
    refine ⟨d, coins, ?_⟩
    show exec (zaddLoop libc key z added (p.1 :: p.2 :: pairArgs pairs)) s = _
    rw [zaddLoop, hx, exec_raise_ok_bind, exec_bind, run_dbZsetAdd]
    refine hrest.trans ?_
    rw [List.length_cons, Nat.add_right_comm, Nat.add_assoc]

/-- The pairs are added to the sorted set of the key, and their number is replied. -/
theorem exec_zaddPairs {pairs : List (Bytes × Bytes)} (hpairs : ScoresParse libc pairs) {z : ZSet}
    {expireAtMs : Int64} {t : Session} (ht : t.dict.WF)
    (hlive : live now t.dict key = some ⟨.zset z, expireAtMs⟩) :
    ∃ t' : Session, exec (zaddPairs libc key z (pairArgs pairs)) t =
        (.ok (), { t' with writeBuf := t.writeBuf ++ (RespValue.integer pairs.length).encode }) ∧
      t'.dict.WF ∧ live now t'.dict key =
        some ⟨.zset (buildZSet libc z t.coins (convertedPairs libc (pairArgs pairs))).1,
          expireAtMs⟩ := by
  obtain ⟨hget, hnot⟩ := live_eq_some_iff.mp hlive
  obtain ⟨d, coins, hrun⟩ := exec_zaddLoop hpairs key z 0 t
  obtain ⟨hwf, hloop⟩ := zaddLoop_spec libc (pairArgs pairs) z 0 ht hget
  rw [hrun] at hwf hloop
  refine ⟨{ t with dict := d, coins := coins }, ?_, hwf, ?_⟩
  · rw [zaddPairs, exec_bind_ok hrun, Nat.zero_add]
    rfl
  · refine live_eq_some_iff.mpr ⟨?_, hnot⟩
    exact (congrFun hloop key).trans (Function.update_self ..)

section Run

variable (hs : s.dict.WF) (hkey : ∀ o, live now s.dict key = some o → ∃ z, o.value = .zset z)

include hs hkey

/-- **`ZADD` on a missing key or a sorted set**: the pairs are added, and the reply is their
number. -/
theorem exec_zadd {pairs : List (Bytes × Bytes)} (hne : pairs ≠ [])
    (hpairs : ScoresParse libc pairs) :
    ∃ (t : Session) (expireAtMs : Int64),
      exec (dispatchCommand libc now (ascii "ZADD" :: key :: pairArgs pairs)) s =
        (.ok (), { t with writeBuf := s.writeBuf ++ (RespValue.integer pairs.length).encode }) ∧
      t.dict.WF ∧ live now t.dict key = some ⟨.zset (buildZSet libc (liveZSet now s.dict key)
        s.coins (convertedPairs libc (pairArgs pairs))).1, expireAtMs⟩ := by
  have hlen : (ascii "ZADD" :: key :: pairArgs pairs).length = 2 * pairs.length + 2 := by
    simp [length_pairArgs]
  have hpos : 0 < pairs.length := List.length_pos_iff.mpr hne
  rw [dispatchCommand_of_find (c := .ZADD) (by decide)]
  show ∃ t expireAtMs, exec (cmdZadd libc now _) s = _ ∧ _
  rw [cmdZadd, needPairs_of_pairs ⟨by omega, by omega⟩, getOrCreateZset]
  have harg : arg (ascii "ZADD" :: key :: pairArgs pairs) 1 = key := rfl
  rw [harg]
  obtain ⟨d, expireAtMs, hd, hlive, hmade⟩ := exec_getOrCreate_bind zsetNew .zset
    Value.zset? (fun _ => rfl) hs hkey _
  rw [hmade]
  obtain ⟨t, hrun, hwf, hafter⟩ := exec_zaddPairs hpairs (t := { s with dict := d }) hd hlive
  exact ⟨t, expireAtMs, hrun, hwf, hafter⟩

variable (libc) in
/-- `ZCARD` replies the number of nodes. -/
theorem replied_zcard_liveZSet (hz : (Value.zset (liveZSet now s.dict key)).WF) :
    Replied libc now s [ascii "ZCARD", key] (.integer (zsetCard (liveZSet now s.dict key))) := by
  unfold liveZSet at hz ⊢
  cases hlive : live now s.dict key with
  | none => exact replied_missing (c := .ZCARD) (by decide) hs hlive rfl fun _ => rfl
  | some o =>
    obtain ⟨z, hvalue⟩ := hkey o hlive
    rw [hlive, Option.bind_some, hvalue] at hz
    obtain ⟨⟨C, hC⟩, -⟩ := hz
    rw [Option.bind_some, hvalue]
    have hcard : zsetCard z = C.length := hC.length_eq
    show Replied libc now s [ascii "ZCARD", key] (.integer (zsetCard z))
    rw [hcard]
    exact replied_zcard libc hs hlive hvalue hC

end Run

/-- New members add one node each if and only if they are kept apart. -/
theorem length_zaddPairs_eq_iff {z : ZSet} (hz : (Value.zset z).WF) (coins : Coins)
    {pairs : List (Bytes × Bytes)} (hpairs : ScoresParse libc pairs)
    (hnodup : (pairs.map Prod.snd).Nodup)
    (habsent : ∀ m ∈ pairs.map Prod.snd, zsetScore libc z m = none) :
    (buildZSet libc z coins (convertedPairs libc (pairArgs pairs))).1.sl.length =
        z.sl.length + pairs.length ↔
      NodesApart libc z coins (convertedPairs libc (pairArgs pairs)) := by
  have hmembers := members_convertedPairs hpairs
  have hcount : (convertedPairs libc (pairArgs pairs)).length = pairs.length := by
    simpa using congrArg List.length hmembers
  obtain ⟨⟨C, hC⟩, hht⟩ := hz
  rw [← hcount, nodesApart_iff _ hht coins (hmembers.symm ▸ hnodup) fun c hc =>
    habsent c.1 (hmembers ▸ List.mem_map_of_mem hc)]
  exact length_buildZSet_eq_iff libc _ hC coins

/-! ### The exact condition -/

/-- The sorted set of a key is in order. -/
theorem wf_liveZSet (hs : AllValues Value.WF s.dict) (now : Int64) (key : Bytes) :
    (Value.zset (liveZSet now s.dict key)).WF := by
  unfold liveZSet
  cases hlive : live now s.dict key with
  | none => exact (valueClass_wf Libc.plain).zsetNew
  | some o =>
    have hvalue := hs.of_live hlive
    rw [Option.bind_some]
    cases hv : o.value with
    | zset z =>
      rw [hv] at hvalue
      exact hvalue
    | _ => exact (valueClass_wf Libc.plain).zsetNew

/-- A call reports the number of pairs as what was added, so this has to be the number of new
members, and the number of new nodes. -/
theorem zaddReports_iff (hs : AllValues Value.WF s.dict)
    (hkey : ∀ o, live now s.dict key = some o → ∃ z, o.value = .zset z)
    {pairs : List (Bytes × Bytes)} (hne : pairs ≠ []) (hpairs : ScoresParse libc pairs) :
    ZaddReports libc now s key pairs ↔
      newMembers libc (liveZSet now s.dict key) (pairs.map Prod.snd) = pairs.length ∧
        (buildZSet libc (liveZSet now s.dict key) s.coins
          (convertedPairs libc (pairArgs pairs))).1.sl.length =
          (liveZSet now s.dict key).sl.length + pairs.length := by
  obtain ⟨t, expireAtMs, hrun, hwf, hafter⟩ := exec_zadd hs.wf hkey hne hpairs
  have hreply : Replied libc now s (ascii "ZADD" :: key :: pairArgs pairs)
      (.integer pairs.length) := by
    rw [Replied, hrun]
    exact ⟨rfl, rfl⟩
  -- what `ZCARD` replies in front of the call and behind it
  have hbefore := replied_zcard_liveZSet libc hs.wf hkey (wf_liveZSet hs now key)
  have hcommand := hs.command (valueClass_wf libc) now (ascii "ZADD" :: key :: pairArgs pairs)
  have hbehind := replied_zcard_liveZSet libc hcommand.wf
    (fun o ho => by
      rw [hrun] at ho
      exact ⟨_, congrArg Obj.value (Option.some.inj (ho.symm.trans hafter))⟩)
    (wf_liveZSet hcommand now key)
  have hgrown : liveZSet now (exec (dispatchCommand libc now
      (ascii "ZADD" :: key :: pairArgs pairs)) s).2.dict key =
      (buildZSet libc (liveZSet now s.dict key) s.coins
        (convertedPairs libc (pairArgs pairs))).1 := by
    rw [hrun, liveZSet, hafter]
    rfl
  rw [hgrown] at hbehind
  constructor
  · rintro ⟨hadded, before, hcard, hcard'⟩
    have hcount := encode_integer_inj (hadded.unique hreply)
    obtain rfl := encode_integer_inj (hcard.unique hbefore)
    refine ⟨hcount, ?_⟩
    rw [← hcount]
    exact encode_integer_inj (hbehind.unique hcard')
  · rintro ⟨hcount, hlen⟩
    refine ⟨hcount ▸ hreply, _, hbefore, ?_⟩
    have hcard : zsetCard (liveZSet now s.dict key) + pairs.length = zsetCard _ := hlen.symm
    rw [hcount, hcard]
    exact hbehind

/-- **`ZADD` reports what it adds**, on a missing key or a sorted set of a reachable database, if
and only if its members are different from each other and from those that are there, and no
insertion takes out a node of the same C string. -/
theorem zadd_reports_iff (hs : Reachable libc s.dict)
    (hkey : ∀ o, live now s.dict key = some o → ∃ z, o.value = .zset z)
    {pairs : List (Bytes × Bytes)} (hne : pairs ≠ []) (hpairs : ScoresParse libc pairs) :
    ZaddReports libc now s key pairs ↔
      (pairs.map Prod.snd).Nodup ∧
        (∀ p ∈ pairs, zsetScore libc (liveZSet now s.dict key) p.2 = none) ∧
        NodesApart libc (liveZSet now s.dict key) s.coins
          (convertedPairs libc (pairArgs pairs)) := by
  have hnew := newMembers_eq_length_iff libc (liveZSet now s.dict key)
    (pairs.map Prod.snd)
  rw [List.length_map] at hnew
  rw [zaddReports_iff hs.values hkey hne hpairs, hnew, and_assoc, List.forall_mem_map]
  refine and_congr_right fun hnodup => and_congr_right fun habsent => ?_
  exact length_zaddPairs_eq_iff (wf_liveZSet hs.values now key) s.coins hpairs hnodup
    (List.forall_mem_map.mpr habsent)

/-- Two members that are new are reported as two. -/
theorem zadd_two_reported : ZaddReports Libc.plain 0 Session.fresh (ascii "k")
    [(ascii "1", ascii "a"), (ascii "0", ascii "b")] := by
  have hfresh : liveZSet 0 Session.fresh.dict (ascii "k") = zsetNew := by
    rw [liveZSet, live_fresh]
    rfl
  have habsent : ∀ m, zsetScore Libc.plain zsetNew m = none := fun m =>
    congrArg (Option.map _) (congrFun dictGet_dictNew m)
  refine (zadd_reports_iff reachable_fresh (fun o ho => ?_) (List.cons_ne_nil _ _) ?_).mpr
    ⟨by decide, ?_, ?_⟩
  · rw [live_fresh] at ho
    cases ho
  · unfold ScoresParse
    rw [List.forall_mem_cons, List.forall_mem_singleton]
    exact ⟨⟨.one, rfl⟩, ⟨0⟩, rfl⟩
  · rw [hfresh]
    exact fun p _ => habsent p.2
  · rw [hfresh]
    exact (nodesApart_iff _ wf_dictNew _ (by decide) fun d _ => habsent d.1).mpr
      (noneTakenOut_of_cstr _ holds_slNew _ (by decide) fun c hc => by cases hc)

/-- The same member twice in one call is counted twice. -/
theorem zadd_repeated_overcounted :
    ¬∀ (libc : Libc) (now : Int64) (s : Session) (key : Bytes) (pairs : List (Bytes × Bytes)),
      Reachable libc s.dict → (∀ o, live now s.dict key = some o → ∃ z, o.value = .zset z) →
      pairs ≠ [] → ScoresParse libc pairs → ZaddReports libc now s key pairs := by
  intro h
  have hparse : ScoresParse Libc.plain [(ascii "1", ascii "a"), (ascii "0", ascii "a")] := by
    unfold ScoresParse
    rw [List.forall_mem_cons, List.forall_mem_singleton]
    exact ⟨⟨.one, rfl⟩, ⟨0⟩, rfl⟩
  have hreport := h Libc.plain 0 Session.fresh (ascii "k") _ reachable_fresh
    (fun o ho => by rw [live_fresh] at ho; cases ho) (List.cons_ne_nil _ _) hparse
  exact absurd hreport.1.2 (by decide)

/-- **Without NUL bytes in the members**, while the two indexes agree, only members that are there
already or repeated are counted too much. -/
theorem zadd_reports_of_agree (hs : Reachable libc s.dict)
    (hkey : ∀ o, live now s.dict key = some o → ∃ z, o.value = .zset z)
    (hagree : (liveZSet now s.dict key).Agree libc) {pairs : List (Bytes × Bytes)}
    (hne : pairs ≠ []) (hpairs : ScoresParse libc pairs) (hnul : ∀ p ∈ pairs, NulFree p.2) :
    ZaddReports libc now s key pairs ↔
      newMembers libc (liveZSet now s.dict key) (pairs.map Prod.snd) = pairs.length := by
  rw [zaddReports_iff hs.values hkey hne hpairs, and_iff_left_iff_imp]
  intro hcount
  have hzset := wf_liveZSet hs.values now key
  obtain ⟨hnodup, habsent⟩ := (newMembers_eq_length_iff ..).mp
    (hcount.trans (List.length_map (f := Prod.snd)).symm)
  refine (length_zaddPairs_eq_iff hzset s.coins hpairs hnodup habsent).mpr ?_
  have hmembers := members_convertedPairs hpairs
  refine hagree.nodesApart hzset s.coins (fun c hc => ?_) (hmembers.symm ▸ hnodup) fun c hc => ?_
  · obtain ⟨p, hp, heq⟩ := List.mem_map.mp (hmembers ▸ List.mem_map_of_mem hc)
    exact heq ▸ hnul p hp
  · exact habsent c.1 (hmembers ▸ List.mem_map_of_mem hc)

end Minired
