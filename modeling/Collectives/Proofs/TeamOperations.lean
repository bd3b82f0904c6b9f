import Collectives.Proofs.Barrier
import Collectives.Proofs.Channels
import Collectives.Proofs.CollectiveCalls

/-!
# Collectives and barriers of a team

What the members of a team do together under one tag is a collective or a barrier
(`TeamOperation`).  Either way they have a plan, which their programs realize
(`TeamOperation.exists_plan`), and from this it follows that a tag is retired at the right moment: a
member that has come to its end has taken everything that anyone ever sends to it
(`Team.Realizes.taken`).  So retiring drops nothing, nothing comes afterwards, and when all members
have ended there is no channel for the tag any more (`TeamOperation.retires_when_done`).
-/

namespace Collectives

namespace Team

variable {t : Team} {plan : List (Round t.size)} {i : Fin t.size}

theorem exists_of_sent_mem_script {dest : Rank} {data : Bytes}
    (h : .sent dest data ∈ t.script plan i) : ∃ j, dest = t.rank j := by
  obtain ⟨j, data', heq | heq⟩ := t.of_mem_script h
  · cases heq
    exact ⟨j, rfl⟩
  · cases heq

/-- To retire is no part of a plan. -/
theorem retired_not_mem_script : .retired ∉ t.script plan i := by
  intro h
  obtain ⟨j, data, heq | heq⟩ := t.of_mem_script h <;> cases heq

end Team

namespace Standing

variable {ex : Exchange} {script history : List Event} {result value : Bytes}

/-- A member that has only its end before it has done all of its script. -/
theorem eq_script_of_ret
    (h : Standing ex script result (some (.running (.ret value))) history) :
    history = script := by
  cases h with
  | steady h _ =>
    cases h with
    | running hs hp =>
      obtain ⟨rfl, -⟩ := hp.of_ret
      rw [hs, List.append_nil]
  | lost hs => cases hs

/-- A member that has ended with a value has done all of its script, and then retired. -/
theorem eq_script_of_finished
    (h : Standing ex script result (some (.finished (.ok value))) history) :
    history = script ++ [.retired] := by
  cases h with
  | steady h _ =>
    cases h with
    | finished => rfl
  | lost hs => cases hs

end Standing

section

variable {t : Team} {plan : List (Round t.size)} {program : Fin t.size → Program Bytes}
  {result : Fin t.size → Bytes} {assigned : Rank → Tag → Program Bytes → Prop} {roll : Roll}
  {r : Recorded Mesh}

/-- Nobody but the members has a task under the tag of the team. -/
theorem TrackedRun.absent_of_not_member (h : TrackedRun assigned t.world roll r)
    (hassigned : ∀ {rank p}, assigned rank t.tag p → ∃ i, rank = t.rank i ∧ p = program i)
    {rank : Rank} (hrank : ¬∃ i, rank = t.rank i) : roll rank t.tag = none := by
  by_contra hne
  obtain ⟨p, hp⟩ := h.exists_assigned hne
  obtain ⟨i, hi, -⟩ := hassigned hp
  exact hrank ⟨i, hi⟩

/-- Whoever has sent a message under the tag of the team is a member, and so is whom it was sent
to. -/
theorem Team.Realizes.members_of_sent (hrealizes : t.Realizes plan program result)
    (h : TrackedRun assigned t.world roll r)
    (hassigned : ∀ {rank p}, assigned rank t.tag p → ∃ i, rank = t.rank i ∧ p = program i)
    {src dest : Rank} (hsent : messagesTo dest (r.events src t.tag) ≠ []) :
    (∃ i, src = t.rank i) ∧ ∃ i, dest = t.rank i := by
  by_cases hsrc : ∃ i, src = t.rank i
  · obtain ⟨i, rfl⟩ := hsrc
    have hscript := (Team.standing h hassigned hrealizes i).sends_of_script dest
    obtain ⟨data, hdata⟩ := List.exists_mem_of_ne_nil _ hsent
    exact ⟨⟨i, rfl⟩, t.exists_of_sent_mem_script (mem_messagesTo.1 (hscript.subset hdata))⟩
  · rw [h.orderly.silent (h.absent_of_not_member hassigned hsrc)] at hsent
    exact absurd rfl hsent

/-- A member that has done all of its script has taken everything that was sent to it, whoever has
sent it and whatever the others still do. -/
theorem Team.Realizes.taken (hrealizes : t.Realizes plan program result)
    (h : TrackedRun assigned t.world roll r)
    (hassigned : ∀ {rank p}, assigned rank t.tag p → ∃ i, rank = t.rank i ∧ p = program i)
    {i : Fin t.size}
    (hdone : ∀ src, messagesFrom src (r.events (t.rank i) t.tag) =
      messagesFrom src (t.script plan i)) (src : Rank) :
    messagesTo (t.rank i) (r.events src t.tag) =
      messagesFrom src (r.events (t.rank i) t.tag) := by
  have hconsumed := h.orderly.consumed (t.rank i) t.tag src
  by_cases hsrc : ∃ j, src = t.rank j
  · obtain ⟨j, rfl⟩ := hsrc
    have hsent := (Team.standing h hassigned hrealizes j).sends_of_script (t.rank i)
    rw [t.messagesTo_script plan j i, ← hdone] at hsent
    exact hsent.eq_of_length_le hconsumed.length_le
  · have hnone : messagesTo (t.rank i) (r.events src t.tag) = [] := by
      by_contra hsent
      exact hsrc (hrealizes.members_of_sent h hassigned hsent).1
    rw [hnone] at hconsumed ⊢
    exact (List.prefix_nil.1 hconsumed).symm

end

/-! ## What a team does under one tag -/

/-- What the members of a team do together under one tag. -/
inductive TeamOperation (t : Team) where
  | collective (c : CollectiveCall t)
  | barrier

namespace TeamOperation

variable {t : Team}

/-- What a member does. -/
def program : TeamOperation t → Fin t.size → Program Bytes
  | collective c => c.program
  | barrier => fun i => Barrier.pass (t.exchange i)

/-- Collectives and barriers have plans. -/
theorem exists_plan (operation : TeamOperation t) :
    ∃ plan result, t.Realizes plan operation.program result := by
  cases operation with
  | collective c =>
    obtain ⟨plan, result, h, -⟩ := c.exists_plan
    exact ⟨plan, result, h⟩
  | barrier => exact ⟨_, _, Barrier.realizes_pass t⟩

/-- Whatever else goes on under other tags, and whatever happens to the other members: when a
member is about to retire, nothing is on its way to it.  Once it has retired, what it took before
is all that anyone has sent to it up to now, and there is no channel to it.  So there is none at
all when all members have ended with their values. -/
theorem retires_when_done (operation : TeamOperation t)
    {assigned : Rank → Tag → Program Bytes → Prop}
    (hassigned : ∀ {rank p}, assigned rank t.tag p → ∃ i, rank = t.rank i ∧ p = operation.program i)
    {e : Executor (Recorded Mesh)}
    (h : Executor.FaultyRun assigned { network := .ofSize t.world } e) :
    (∀ i value, e.roll (t.rank i) t.tag = some (.running (.ret value)) → ∀ src,
      e.network.network.queue src (t.rank i) t.tag = [] ∧
        messagesTo (t.rank i) (e.network.events src t.tag) =
          messagesFrom src (e.network.events (t.rank i) t.tag)) ∧
    (∀ i value, e.roll (t.rank i) t.tag = some (.finished (.ok value)) →
      ∃ before, e.network.events (t.rank i) t.tag = before ++ [.retired] ∧ .retired ∉ before ∧
        ∀ src, messagesTo (t.rank i) (e.network.events src t.tag) = messagesFrom src before ∧
          e.network.network.channel? src (t.rank i) t.tag = none) ∧
    ((∀ i, ∃ value, e.roll (t.rank i) t.tag = some (.finished (.ok value))) →
      ∀ src dest, e.network.network.channel? src dest t.tag = none) := by
  obtain ⟨plan, result, hrealizes⟩ := operation.exists_plan
  have hrun := h.tracked.run
  have hstanding := fun i => Team.standing hrun hassigned hrealizes i
  have htidy := hrun.tidy
  have hretired : ∀ i value, e.roll (t.rank i) t.tag = some (.finished (.ok value)) →
      e.network.events (t.rank i) t.tag = t.script plan i ++ [.retired] ∧
        ∀ src, messagesTo (t.rank i) (e.network.events src t.tag) =
            messagesFrom src (e.network.events (t.rank i) t.tag) ∧
          e.network.network.channel? src (t.rank i) t.tag = none := by
    intro i value hi
    have hevents : e.network.events (t.rank i) t.tag = t.script plan i ++ [.retired] := by
      have hfinished := hstanding i
      rw [hi] at hfinished
      exact hfinished.eq_script_of_finished
    have htaken := hrealizes.taken hrun hassigned fun src => by
      rw [hevents, messagesFrom_append, messagesFrom_retired, messagesFrom_nil, List.append_nil]
    refine ⟨hevents, fun src => ⟨htaken src, htidy.no_channel ?_ (htaken src)⟩⟩
    rw [hi]
    exact .finished _
  refine ⟨?_, ?_, ?_⟩
  · intro i value hi src
    have hevents : e.network.events (t.rank i) t.tag = t.script plan i := by
      have hrunning := hstanding i
      rw [hi] at hrunning
      exact hrunning.eq_script_of_ret
    have htaken := hrealizes.taken hrun hassigned (fun src => by rw [hevents]) src
    exact ⟨htidy.queue_eq_nil htaken, htaken⟩
  · intro i value hi
    obtain ⟨hevents, htaken⟩ := hretired i value hi
    refine ⟨t.script plan i, hevents, Team.retired_not_mem_script, ?_⟩
    intro src
    refine ⟨?_, (htaken src).2⟩
    rw [(htaken src).1, hevents, messagesFrom_append, messagesFrom_retired, messagesFrom_nil,
      List.append_nil]
  · intro hall src dest
    by_cases hdest : ∃ i, dest = t.rank i
    · obtain ⟨i, rfl⟩ := hdest
      obtain ⟨value, hi⟩ := hall i
      exact ((hretired i value hi).2 src).2
    · have habsent := hrun.absent_of_not_member hassigned hdest
      refine htidy.no_channel (by rw [habsent]; exact .absent) ?_
      rw [hrun.orderly.silent habsent, messagesFrom_nil]
      by_contra hsent
      exact hdest (hrealizes.members_of_sent hrun hassigned hsent).2

/-- Three members have added up their numbers, each with steps to spare. -/
def addedUp : Executor (Recorded Mesh) :=
  (CollectiveCall.summingTrio.traced CollectiveCall.sum.program).steps
    [2, 2, 0, 0, 0, 0, 1, 1, 1, 0, 0, 0, 2, 2, 2]

/-- The first of them has taken the number of the second before it retired, and in the end there
is no channel for the sum. -/
theorem retires_when_done_trio :
    addedUp.roll 2 CollectiveCall.summingTrio.tag =
        some (.finished (.ok (DataType.int.encode [111]))) ∧
      messagesTo 2 (addedUp.network.events 0 CollectiveCall.summingTrio.tag) =
        [DataType.int.encode [10]] ∧
      (∃ before, addedUp.network.events 2 CollectiveCall.summingTrio.tag = before ++ [.retired] ∧
        messagesFrom 0 before = [DataType.int.encode [10]]) ∧
      ∀ src dest,
        addedUp.network.network.channel? src dest CollectiveCall.summingTrio.tag = none := by
  have hended : ∀ i : Fin 3, ∃ value,
      addedUp.roll (CollectiveCall.summingTrio.rank i) CollectiveCall.summingTrio.tag =
        some (.finished (.ok value)) := by
    refine Fin.forall_fin_succ.2 ⟨⟨_, by rfl⟩, Fin.forall_fin_two.2 ⟨⟨_, by rfl⟩, ⟨_, by rfl⟩⟩⟩
  have hsum : addedUp.roll 2 CollectiveCall.summingTrio.tag =
      some (.finished (.ok (DataType.int.encode [111]))) := by rfl
  have hsent : messagesTo 2 (addedUp.network.events 0 CollectiveCall.summingTrio.tag) =
      [DataType.int.encode [10]] := by rfl
  obtain ⟨-, hretired, hclear⟩ := retires_when_done (.collective CollectiveCall.sum)
    Team.Assigned.exists_member (.steps (Team.faultyRun_tasks _) _ : Executor.FaultyRun _ _ addedUp)
  obtain ⟨before, hevents, -, htaken⟩ := hretired (0 : Fin 3) _ hsum
  exact ⟨hsum, hsent, ⟨before, hevents, (htaken 0).1.symm.trans hsent⟩, hclear hended⟩

end TeamOperation

end Collectives
