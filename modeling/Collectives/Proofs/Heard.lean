import Collectives.Proofs.Hypercube
import Collectives.Proofs.Ring
import Collectives.Proofs.Standing

/-!
# Who has heard from whom

During a plan a member hears from those whose messages it receives, and from all those from whom
they had heard before they sent them (`Heard`).  Who has completed the part of the plan in which it
hears from another knows that the other has begun, whatever else has happened to the members
(`Underway.begun_of_heard`): what was received was sent, and who has sent the message of a round has
completed the rounds before.  Where everyone hears from everyone else, nobody can end with a value
before all have begun (`Team.Realizes.begun_of_finished`).

On a ring a round over distance `d` lets a member hear from all those that the member `d` places
before it has heard from (`Heard.of_behind`); in a hypercube an exchange joins what the two halves
of a block have heard from (`Hypercube.heard_exchanges`).
-/

namespace Collectives

/-- During the rounds the first member hears from the second: it receives a message
from it, or from a member that has heard from it in the rounds before. -/
inductive Heard {n : Nat} : List (Round n) → Fin n → Fin n → Prop where
  | direct {before after : List (Round n)} {round : Round n} {i j : Fin n} {data : Bytes}
      (h : round.receives i = some (j, data)) : Heard (before ++ round :: after) i j
  | relayed {before after : List (Round n)} {round : Round n} {i k j : Fin n} {data : Bytes}
      (h : round.receives i = some (k, data)) (hk : Heard before k j) :
      Heard (before ++ round :: after) i j

namespace Heard

variable {n : Nat} {plan : List (Round n)} {round : Round n} {i j k : Fin n} {data : Bytes}

theorem append (h : Heard plan i j) (more : List (Round n)) : Heard (plan ++ more) i j := by
  cases h with
  | direct h =>
    rw [List.append_assoc, List.cons_append]
    exact .direct h
  | relayed h hk =>
    rw [List.append_assoc, List.cons_append]
    exact .relayed h hk

/-- The last round passes on what the sender has heard. -/
theorem of_last (h : round.receives i = some (k, data)) (hj : k = j ∨ Heard plan k j) :
    Heard (plan ++ [round]) i j := by
  rcases hj with rfl | hj
  · exact .direct h
  · exact .relayed h hj

open RingOrder in
/-- The last round comes from a member not further back than the one to hear from. -/
theorem of_behind {distance : Nat} (h : round.receives i = some (behind i distance, data))
    (hle : distance ≤ gap i j)
    (hplan : distance < gap i j → Heard plan (behind i distance) j) :
    Heard (plan ++ [round]) i j := by
  refine of_last h ?_
  rcases Nat.lt_or_eq_of_le hle with hlt | rfl
  · exact .inr (hplan hlt)
  · exact .inl (behind_gap i j)

end Heard

/-! ## Who has been heard from has begun -/

namespace Underway

variable {t : Team} {plan : List (Round t.size)} {done : Fin t.size → List Event}

theorem script_upto (before after : List (Round t.size)) (round : Round t.size)
    (i : Fin t.size) :
    t.script (before ++ [round]) i <+: t.script (before ++ round :: after) i := by
  have hsplit : before ++ round :: after = before ++ [round] ++ after := by simp
  rw [hsplit, t.script_append _ after]
  exact List.prefix_append _ _

/-- Who receives the message of a round receives it from a member that has completed the rounds
before and sent it. -/
theorem sent_of_received (h : Underway t plan done) {before after : List (Round t.size)}
    {round : Round t.size} (hplan : plan = before ++ round :: after) {i k : Fin t.size}
    {data : Bytes} (hr : round.receives i = some (k, data))
    (hi : t.script (before ++ [round]) i <+: done i) :
    t.script before k ++ [.sent (t.rank i) data] <+: done k := by
  have hsends := (round.matched k i data).2 hr
  have hscript := t.script_round before after round k
  rw [← hplan, t.sendEvents_of_some hsends, ← List.append_assoc] at hscript
  have hplanned : t.script before k ++ [.sent (t.rank i) data] <+: t.script plan k := by
    rw [hscript]
    exact List.prefix_append _ _
  rcases List.prefix_or_prefix_of_prefix hplanned (h.begun k) with hdone | hdone
  · exact hdone
  rcases List.prefix_concat_iff.1 hdone with heq | hshort
  · simp only [heq, List.prefix_rfl]
  · -- otherwise it has sent fewer messages than were received from it
    exfalso
    have hsent := (messagesTo_mono (t.rank i) hshort).length_le
    have hreceived := ((hi.filterMap (Event.receivedFrom? (t.rank k))).trans
      (h.matched i k)).length_le
    have hcount : messagesFrom (t.rank k) (t.script (before ++ [round]) i) =
        messagesTo (t.rank i) (t.script before k) ++ [data] := by
      rw [← t.messagesTo_script, t.script_append, t.script_cons, t.script_nil, List.append_nil,
        messagesTo_append, messagesTo_append, t.messagesTo_receiveEvents, List.append_nil,
        t.sendEvents_of_some hsends, messagesTo_sent, if_pos rfl, messagesTo_nil]
    have hlength := congrArg List.length hcount
    rw [List.length_append, List.length_singleton, messagesFrom] at hlength
    omega

/-- Who has completed the part of the plan in which it hears from a member knows that this member
has begun. -/
theorem begun_of_heard (h : Underway t plan done) {part : List (Round t.size)} {i j : Fin t.size}
    (hheard : Heard part i j) {rest : List (Round t.size)} (hplan : plan = part ++ rest)
    (hi : t.script part i <+: done i) : done j ≠ [] := by
  induction hheard generalizing rest with
  | @direct before after round i j data hr =>
    rw [List.append_assoc, List.cons_append] at hplan
    have hround := (script_upto before after round i).trans hi
    intro hnil
    have hsent := h.sent_of_received hplan hr hround
    rw [hnil, List.prefix_nil] at hsent
    exact List.append_ne_nil_of_right_ne_nil _ (List.cons_ne_nil _ _) hsent
  | @relayed before after round i k j data hr _ ih =>
    rw [List.append_assoc, List.cons_append] at hplan
    have hround := (script_upto before after round i).trans hi
    exact ih hplan ((List.prefix_append _ _).trans (h.sent_of_received hplan hr hround))

end Underway

/-- Where everyone hears from everyone else, nobody ends with a value before all have started and
have done what their scripts begin with. -/
theorem Team.Realizes.begun_of_finished {t : Team} {plan : List (Round t.size)}
    {program : Fin t.size → Program Bytes} {result : Fin t.size → Bytes}
    (h : t.Realizes plan program result) (hheard : ∀ i j, i ≠ j → Heard plan i j)
    {e : Executor (Recorded Mesh)} (he : t.TracedFaultyRun program e) {i : Fin t.size}
    {data : Bytes}
    (hi : e.roll (t.rank i) t.tag = some (.finished (.ok data))) (j : Fin t.size) :
    e.roll (t.rank j) t.tag ≠ none ∧ ∀ {first rest}, t.script plan j = first :: rest →
      [first] <+: e.network.events (t.rank j) t.tag := by
  obtain ⟨done, hunderway, hdone⟩ := he.exists_underway h
  have hall : done i = t.script plan i := ((hdone i).2.2 data hi).2
  have hbegun : i ≠ j → done j ≠ [] := by
    intro hij
    refine hunderway.begun_of_heard (hheard i j hij) (List.append_nil _).symm ?_
    simp only [hall, List.prefix_rfl]
  constructor
  · intro hnone
    by_cases hij : i = j
    · rw [← hij, hi] at hnone
      cases hnone
    · exact hbegun hij ((hdone j).2.1 hnone)
  · intro first rest hscript
    have hne : done j ≠ [] := by
      by_cases hij : i = j
      · rw [← hij, hall, hij, hscript]
        exact List.cons_ne_nil _ _
      · exact hbegun hij
    refine List.IsPrefix.trans ?_ (hdone j).1
    have hprefix := hunderway.begun j
    rw [hscript] at hprefix
    obtain ⟨event, more, hcons⟩ := List.exists_cons_of_ne_nil hne
    rw [hcons, List.cons_prefix_cons] at hprefix
    rw [hcons, hprefix.1]
    exact ⟨more, rfl⟩

/-! ## Around a ring -/

namespace RingOrder

variable {n : Nat}

/-- In a pass of `m` rounds a member hears from the `m` members before it. -/
theorem heard_shifts (data : Nat → Fin n → Bytes) (step m : Nat) {i j : Fin n} (hij : i ≠ j)
    (hgap : gap i j ≤ m) : Heard (shifts data step m) i j := by
  induction m generalizing i with
  | zero => exact absurd (gap_pos.2 hij) (Nat.not_lt.2 hgap)
  | succ m ih =>
    have hlast : shifts data step (m + 1) =
        shifts data step m ++ [.shift (data (step + m))] := by
      rw [shifts, List.range'_concat, List.map_append, Nat.one_mul]
      rfl
    rw [hlast]
    refine .of_behind rfl (gap_pos.2 hij) ?_
    intro hlt
    have hle := gap_behind_of_le (Nat.le_of_lt hlt)
    exact ih (gap_pos.1 (by omega)) (by omega)

end RingOrder

/-! ## In a hypercube -/

namespace Hypercube

variable {n l : Nat}

/-- When those beyond are folded in, after `k` exchanges a member inside has heard from all that
belong to its block. -/
theorem heard_exchanges (hl : 2 ^ l ≤ n) (folded : Fin n → Bytes)
    (data : Nat → Fin n → Bytes) {k : Nat} (hk : k ≤ l) {i j : Fin n} (hi : i.val < 2 ^ l)
    (hij : i ≠ j) (hblock : blockStart k (corner l j) = blockStart k i) :
    Heard ([.fold (2 ^ l) folded] ++ (List.range k).map fun k => .exchange (2 ^ l) k hl (data k))
      i j := by
  induction k generalizing i with
  | zero =>
    rw [blockStart_zero, blockStart_zero, corner] at hblock
    split at hblock
    · have hj : i.val + 2 ^ l = j.val := by omega
      have hlt : i.val + 2 ^ l < n := by rw [hj]; exact j.isLt
      have hr : (Round.fold (2 ^ l) folded).receives i =
          some (⟨i.val + 2 ^ l, hlt⟩, folded ⟨i.val + 2 ^ l, hlt⟩) := dif_pos hlt
      have hjfin : (⟨i.val + 2 ^ l, hlt⟩ : Fin n) = j := Fin.ext hj
      show Heard ([] ++ [.fold (2 ^ l) folded]) i j
      exact .of_last hr (.inl hjfin)
    · exact absurd (Fin.ext hblock.symm) hij
  | succ k ih =>
    have hxor : i.val ^^^ 2 ^ k < 2 ^ l := xor_lt hi hk
    rw [List.range_succ, List.map_append, ← List.append_assoc]
    rcases half_of_block hblock with hown | hother
    · exact (ih (Nat.le_of_succ_le hk) hi hij hown).append _
    · have hr : (Round.exchange (2 ^ l) k hl (data k)).receives i =
          some (⟨i.val ^^^ 2 ^ k, hxor.trans_le hl⟩, data k ⟨i.val ^^^ 2 ^ k, hxor.trans_le hl⟩) :=
        dif_pos ⟨hi, hxor⟩
      refine .of_last hr ?_
      by_cases hj : (⟨i.val ^^^ 2 ^ k, hxor.trans_le hl⟩ : Fin n) = j
      · exact .inl hj
      · exact .inr (ih (Nat.le_of_succ_le hk) hxor hj hother)

end Hypercube

end Collectives
