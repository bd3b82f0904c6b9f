import Mathlib
import Collectives.Proofs.ReachableSessions
import Collectives.Proofs.TeamOperations

/-!
# Teams at work at the same time

Several teams of one world are at work at the same time, each under a tag of its own.  Their members
may be the same or not, they may come in any order, and any of them may be given up while others go
on.

As long as all endpoints stay open, none of this matters to a team whose members have all come and
of whom none is given up: it is never stuck, and it comes to its end with the results that it has
when it is alone in the world (`Team.Realizes.assured`).  What is sent to those who were given up
is accepted and dropped, and under every tag a rank receives only what was sent to it under this
tag (`ConcurrentTeams.undisturbed`).
-/

namespace Collectives

/-- The members of a team are under way to their results or have ended with them, nothing keeps
them from going on, and some of the schedules that are left lead all of them to their ends. -/
structure Team.Assured (t : Team) (result : Fin t.size → Bytes) (e : Executor (Recorded Mesh)) :
    Prop where
  sound : ∀ i, (∃ p, e.roll (t.rank i) t.tag = some (.running p)) ∨
    e.roll (t.rank i) t.tag = some (.finished (.ok (result i)))
  live : (∃ i, e.roll (t.rank i) t.tag ≠ some (.finished (.ok (result i)))) →
    ∃ i, e.Moves (t.rank i) t.tag
  completes : ∃ e', e.Reaches e' ∧
    ∀ i, e'.roll (t.rank i) t.tag = some (.finished (.ok (result i)))

section

variable {t : Team} {plan : List (Round t.size)} {program : Fin t.size → Program Bytes}
  {result : Fin t.size → Bytes} {assigned : Rank → Tag → Program Bytes → Prop}
  {e : Executor (Recorded Mesh)}

/-- A member that has come and was not given up has met no mishap, where all endpoints are open. -/
theorem Team.Realizes.no_mishap (hrealizes : t.Realizes plan program result)
    (h : e.Tracked assigned t.world)
    (hassigned : ∀ {rank p}, assigned rank t.tag p → ∃ i, rank = t.rank i ∧ p = program i)
    (hopen : e.network.network.AllOpen) {i : Fin t.size}
    (hkept : ¬e.roll.GivenUp (t.rank i) t.tag) :
    ∀ event ∈ e.network.events (t.rank i) t.tag, ¬event.IsMishap := by
  refine h.run.no_mishap ?_ hopen hkept
  intro rank p hp
  obtain ⟨j, -, rfl⟩ := hassigned hp
  exact (hrealizes.through j).among.mono t.inWorld

/-- Whatever goes on under other tags, a team whose members have all come, and of whom none was
given up, comes to its end, where all endpoints stay open. -/
theorem Team.Realizes.assured (hrealizes : t.Realizes plan program result)
    (h : e.Tracked assigned t.world)
    (hassigned : ∀ {rank p}, assigned rank t.tag p → ∃ i, rank = t.rank i ∧ p = program i)
    (hopen : e.StaysOpen)
    (hcome : ∀ i, e.roll (t.rank i) t.tag ≠ none ∧ ¬e.roll.GivenUp (t.rank i) t.tag) :
    t.Assured result e := by
  -- a step keeps what is assumed, and no schedule takes steps forever
  induction e using WellFounded.induction (Executor.wellFounded_steps (σ := Recorded Mesh)) with
  | _ e ih =>
    have hclean := fun i => hrealizes.no_mishap h hassigned hopen.allOpen (hcome i).2
    have hlive : (∃ i, e.roll (t.rank i) t.tag ≠ some (.finished (.ok (result i)))) →
        ∃ i, e.Moves (t.rank i) t.tag :=
      Team.moves_of_no_mishap h hassigned hrealizes (fun i => (hcome i).1) hclean
    refine ⟨?_, hlive, ?_⟩
    · intro i
      obtain ⟨s, hs⟩ := Option.ne_none_iff_exists'.1 (hcome i).1
      have hstanding := Team.standing h.run hassigned hrealizes i
      rw [hs] at hstanding ⊢
      rcases (hstanding.progress_of_no_mishap (hclean i)).running_or_finished with
        ⟨p, -, rfl, -, -⟩ | rfl
      · exact .inl ⟨p, rfl⟩
      · exact .inr rfl
    · by_cases hall : ∀ i, e.roll (t.rank i) t.tag = some (.finished (.ok (result i)))
      · exact ⟨e, .refl, hall⟩
      · obtain ⟨i, k, s, -, hk⟩ := hlive (not_forall.1 hall)
        obtain ⟨e', he', hdone⟩ := (ih _ ⟨k, hk, rfl⟩ (h.step k) (hopen.step k)
          fun i => h.step_kept k (hcome i).1 (hcome i).2).completes
        exact ⟨e', (Executor.Reaches.refl.step k).trans he', hdone⟩

end

/-! ## Several teams -/

/-- What several teams of one world do, each under a tag of its own. -/
structure ConcurrentTeams (ι : Type) (world : Nat) where
  team : ι → Team
  operation : ∀ a, TeamOperation (team a)
  world_eq : ∀ a, (team a).world = world
  tag_injective : Function.Injective fun a => (team a).tag

namespace ConcurrentTeams

variable {ι : Type} {world : Nat} (f : ConcurrentTeams ι world)

/-- The members of all teams, each with its program. -/
def Assigned (rank : Rank) (tag : Tag) (p : Program Bytes) : Prop :=
  ∃ a, (f.team a).Assigned (f.operation a).program rank tag p

variable {f}

/-- The members of a team alone use its tag. -/
theorem Assigned.exists_member {a : ι} {rank : Rank} {p : Program Bytes}
    (h : f.Assigned rank (f.team a).tag p) :
    ∃ i, rank = (f.team a).rank i ∧ p = (f.operation a).program i := by
  obtain ⟨b, i, hrank, htag, hp⟩ := h
  obtain rfl := f.tag_injective htag
  exact ⟨i, hrank, hp⟩

/-- All members are of the world. -/
theorem Assigned.lt_world {rank : Rank} {tag : Tag} {p : Program Bytes}
    (h : f.Assigned rank tag p) : rank.toNat < world := by
  obtain ⟨a, i, rfl, -⟩ := h
  have hlt := (f.team a).inWorld _ ((f.team a).rank_mem i)
  rwa [f.world_eq] at hlt

variable (f)

/-- In whatever order the members come, take steps, wait, and close what they have begun: the teams
that are complete come to their ends as if they were alone, what is sent to members that were given
up is accepted and stored nowhere, and a task receives only what was sent to its rank under its
tag. -/
theorem undisturbed : ∃ result : ∀ a, Fin (f.team a).size → Bytes,
    (∀ a, ((f.team a).run (f.operation a).program).Delivers (result a)) ∧
    ∀ s : Session (Recorded Mesh), s.Reachable f.Assigned { network := .ofSize world } →
      s.executor.StaysOpen →
        (∀ a, (∀ i, s.executor.roll ((f.team a).rank i) (f.team a).tag ≠ none ∧
            ¬s.executor.roll.GivenUp ((f.team a).rank i) (f.team a).tag) →
          (f.team a).Assured (result a) s.executor) ∧
        (∀ dest tag, s.executor.roll.GivenUp dest tag → ∀ src,
          (∀ data, s.executor.network.network.send src dest tag data =
            (.ok (), s.executor.network.network)) ∧
          s.executor.network.network.channel? src dest tag = none) ∧
        ∀ src dest tag, messagesFrom src (s.executor.network.events dest tag) <+:
          messagesTo dest (s.executor.network.events src tag) := by
  choose plan result hrealizes using fun a => (f.operation a).exists_plan
  refine ⟨result, fun a => (hrealizes a).delivers, ?_⟩
  intro s hs hopen
  have htracked := hs.faultyRun.tracked
  refine ⟨?_, ?_, ?_⟩
  · intro a hcome
    have hteam : s.executor.Tracked f.Assigned (f.team a).world := by
      rw [f.world_eq]
      exact htracked
    exact (hrealizes a).assured hteam Assigned.exists_member hopen hcome
  · intro dest tag hup src
    have hdrops := htracked.run.tidy.dropped hup
    obtain ⟨status, hstatus, -⟩ := hup
    obtain ⟨p, hp⟩ := htracked.run.exists_assigned (by rw [hstatus]; exact nofun)
    have hdest : s.executor.network.network.Open dest := by
      refine hopen.allOpen dest ?_
      rw [htracked.run.orderly.size_eq]
      exact hp.lt_world
    exact ⟨hdrops.send_eq hdest src, hdrops.no_channel src⟩
  · intro src dest tag
    exact htracked.run.orderly.consumed dest tag src

/-- Three ranks, and the first group of all of them. -/
def everyone : Team :=
  { Team.trio with
    id := Tag.groupId [2, 0, 1] 0
    tag := .ofSequence (Tag.groupId [2, 0, 1] 0) 0
    operation := "barrier" }

/-- Two of them, and the first group that they have for themselves. -/
def pair : Team where
  world := 3
  ranks := [0, 1]
  nonempty := by decide
  nodup := by decide
  inWorld := by simp
  id := Tag.groupId [0, 1] 0
  tag := .ofSequence (Tag.groupId [0, 1] 0) 0
  operation := "broadcast"

/-- One of the two has a number for the other. -/
def message : CollectiveCall pair where
  sequence := 0
  params := .broadcast 0
  dtype := .int
  name := .linear
  algorithm := .linear
  count _ := 1
  input := fun i : Fin 2 => (![some [5], none] : Fin 2 → Option (List Int32)) i
  job := fun i : Fin 2 => ⟨pair.exchange i, .broadcast 0, .int, 1,
    (![DataType.int.encode [5], []] : Fin 2 → Bytes) i⟩
  resolved := rfl
  created _ := rfl
  staged := Fin.forall_fin_two.2 ⟨rfl, rfl⟩
  agreed := .inr fun _ _ => rfl

/-- All of them meet at a barrier, and the pair has its broadcast. -/
def meeting : ConcurrentTeams Bool 3 where
  team
    | true => everyone
    | false => pair
  operation
    | true => .barrier
    | false => .collective message
  world_eq := by decide
  tag_injective := by
    have hne : everyone.tag ≠ pair.tag := by decide +kernel
    rintro (_ | _) (_ | _) h
    · rfl
    · exact absurd h hne.symm
    · exact absurd h hne
    · rfl

/-- The groups are built, and one member of the pair waits for the broadcast. -/
def gathered : Session (Recorded Mesh) :=
  let s : Session (Recorded Mesh) := .ofCommunicators { network := .ofSize 3 } .builtin
    [⟨⟨0, 3, by decide⟩, .standard, .empty⟩, ⟨⟨1, 3, by decide⟩, .standard, .empty⟩,
      ⟨⟨2, 3, by decide⟩, .standard, .empty⟩]
  let s := s.after (s.group 2 "first" (some [2, 0, 1]))
  let s := s.after (s.group 0 "second" (some [2, 0, 1]))
  let s := s.after (s.group 1 "third" (some [2, 0, 1]))
  let s := s.after (s.group 1 "pair" (some [0, 1]))
  let s := s.after (s.build 1 "pair" "message" (.ok ⟨.broadcast 0, .int, 1, some .linear⟩))
  s.after (s.start "message" .int none true)

theorem reachable_gathered :
    Session.Reachable meeting.Assigned { network := .ofSize 3 } gathered := by
  refine .started (.built (.grouped (.grouped (.grouped (.grouped (.begun _ _) _ _ _) _ _ _) _ _ _)
    _ _ _) _ _ _ _) _ _ _ _ ?_
  intro op job hop hjob _
  cases hop
  cases hjob
  exact ⟨⟨false, (1 : Fin 2), rfl, rfl, rfl⟩, nofun⟩

/-- A member of the large group enters the barrier. -/
theorem reachable_barrier {s : Session (Recorded Mesh)} {c : Communicator} {id : GroupId}
    {shared : SharedGroup} {rank : Rank} {groupName name : String}
    (h : s.Reachable meeting.Assigned { network := .ofSize 3 }) (i : Fin 3)
    (hc : s.communicators.get? rank = some c) (hgroup : s.findGroup groupName = .ok (id, shared))
    (hexchange : c.barrier shared.group shared.drawn = .ok (everyone.exchange i))
    (hnew : (s.executor.tasks.any fun task =>
      task.rank = everyone.rank i && task.tag = everyone.tag) = false) :
    (s.after (s.barrier rank groupName name)).Reachable meeting.Assigned
      { network := .ofSize 3 } := by
  refine .entered h _ _ _ ?_
  intro c' id' shared' exchange hc' hgroup' hexchange'
  cases hc.symm.trans hc'
  cases hgroup.symm.trans hgroup'
  cases hexchange.symm.trans hexchange'
  have hfresh : ∀ task ∈ s.executor.tasks,
      ¬(task.rank = everyone.rank i ∧ task.tag = everyone.tag) := by simpa using hnew
  exact ⟨⟨true, i, rfl, rfl, rfl⟩, hfresh⟩

/-- Two have entered the barrier, and the broadcast is closed. -/
def closed : Session (Recorded Mesh) :=
  let s := gathered.after (gathered.barrier 2 "first" "early")
  let s := s.after (s.barrier 0 "second" "next")
  s.after (s.close "message")

/-- The last one enters the barrier. -/
def complete : Session (Recorded Mesh) := closed.after (closed.barrier 1 "third" "late")

theorem reachable_complete : complete.Reachable meeting.Assigned { network := .ofSize 3 } := by
  have hclosed : closed.Reachable meeting.Assigned { network := .ofSize 3 } :=
    .closed (reachable_barrier
      (reachable_barrier reachable_gathered (0 : Fin 3) rfl rfl rfl (by cbv))
      (1 : Fin 3) rfl rfl rfl (by cbv)) _
  exact reachable_barrier hclosed (2 : Fin 3) rfl rfl rfl (by cbv)

/-- The broadcast was given up where it was awaited, and what is sent there is dropped; at the
barrier all are still under way, and all will pass it. -/
theorem undisturbed_meeting :
    complete.executor.roll 1 pair.tag = some .aborted ∧
      complete.executor.network.network.send 0 1 pair.tag [5, 0, 0, 0] =
        (.ok (), complete.executor.network.network) ∧
      (∀ i : Fin 3, ∃ p, complete.executor.roll (everyone.rank i) everyone.tag =
        some (.running p)) ∧
      ∃ result : Fin 3 → Bytes,
        (everyone.run fun i => Barrier.pass (everyone.exchange i)).Delivers result ∧
        ∃ e, complete.executor.Reaches e ∧ ∀ i : Fin 3,
          e.roll (everyone.rank i) everyone.tag = some (.finished (.ok (result i))) := by
  have haborted : complete.executor.roll 1 pair.tag = some .aborted := by cbv
  have hstatuses : ((List.finRange 3).all fun i : Fin 3 =>
      (complete.executor.roll (everyone.rank i) everyone.tag).any Status.isRunning) = true := by cbv
  have hrunning : ∀ i : Fin 3, ∃ p, complete.executor.roll (everyone.rank i) everyone.tag =
      some (.running p) := by
    intro i
    exact Roll.exists_running_of_any (List.all_eq_true.1 hstatuses i (List.mem_finRange i))
  have hmailboxes : (complete.executor.network.network.mailboxes.all (·.isOpen)) = true := by cbv
  have hopen : complete.executor.StaysOpen :=
    ⟨by cbv, Mesh.allOpen_of_mailboxes (List.all_eq_true.1 hmailboxes)⟩
  obtain ⟨result, halone, hall⟩ := undisturbed meeting
  obtain ⟨hassured, hdropped, -⟩ := hall complete reachable_complete hopen
  refine ⟨haborted, (hdropped 1 pair.tag ⟨_, haborted, trivial⟩ 0).1 _, hrunning, result true,
    halone true, (hassured true ?_).completes⟩
  intro (i : Fin 3)
  obtain ⟨p, hp⟩ := hrunning i
  refine ⟨?_, Roll.not_givenUp_of_running hp⟩
  intro hnone
  cases hnone.symm.trans hp

end ConcurrentTeams

end Collectives
